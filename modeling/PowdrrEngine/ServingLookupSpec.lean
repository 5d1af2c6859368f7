import PowdrrEngine.LibTopK
import PowdrrEngine.ServingLookup

/-! What the snapshot lookup answers, in terms of the rows it holds. First the index: the postings of a
field and a key are the positions of the rows with that key. From there, an equality lookup filters the
rows, a key range lookup filters and sorts them. -/

namespace PowdrrEngine

open SnapshotLookupCache List Lists

/-! ### The index -/

def hasKey (field : String) (key : SnapshotLookupKey) (row : ServingRow) : Bool :=
  (row.lookup field).any fun value => encodeExactLookupKey value = some key

theorem ExactIndex.postings_push (index : ExactIndex) (field field' : String)
    (key key' : SnapshotLookupKey) (row : Nat) :
    (index.push field key row).postings field' key' =
      index.postings field' key' ++ if field = field' ∧ key = key' then [row] else [] := by
  unfold postings push Dict.getD
  rw [Dict.lookup_insert_eq]
  by_cases hfield : field' = field
  · subst hfield
    rw [if_pos rfl, Option.getD_some, Dict.lookup_insert_eq]
    by_cases hkey : key' = key
    · subst hkey
      simp [postings, Dict.getD]
    · simp [hkey, Ne.symm hkey]
  · simp [hfield, Ne.symm hfield]

section

variable (hash : SnapshotLookupKey → Nat)

def shardPostings (field : String) (key : SnapshotLookupKey) (shards : List ExactIndex) : List Nat :=
  (shards.getD (snapshotLookupShardForLookupKey hash key) ∅).postings field key

theorem shardPostings_indexField {shards : List ExactIndex}
    (hlen : shards.length = snapshotLookupShardCount) (row : Nat)
    (member : Sigma fun _ : String => Value) (field : String) (key : SnapshotLookupKey) :
    (indexField hash row shards member).length = snapshotLookupShardCount ∧
      shardPostings hash field key (indexField hash row shards member) = shardPostings hash field key shards ++
          if member.1 = field ∧ encodeExactLookupKey member.2 = some key then [row] else [] := by
  unfold indexField
  cases hencode : encodeExactLookupKey member.2 with
  | none => simp [hlen]
  | some key' =>
    refine ⟨by simp [hlen], ?_⟩
    have hlt : ∀ k, snapshotLookupShardForLookupKey hash k < shards.length := by
      intro k
      rw [hlen]
      exact Nat.mod_lt _ (by decide)
    unfold shardPostings
    rw [getD_eq_getElem?_getD, getElem?_modify, getD_eq_getElem?_getD]
    rw [getElem?_eq_getElem (hlt key)]
    by_cases hkey : key' = key
    · subst hkey
      simp [ExactIndex.postings_push]
    · by_cases hshard : snapshotLookupShardForLookupKey hash key' = snapshotLookupShardForLookupKey hash key
      · simp [hshard, ExactIndex.postings_push, hkey]
      · simp [hshard, hkey]

theorem shardPostings_buildSnapshotLookupExactIndexShards (rows : List ServingRow) (field : String)
    (key : SnapshotLookupKey) :
    shardPostings hash field key (buildSnapshotLookupExactIndexShards hash rows) =
      (List.range rows.length).filter fun i => (rows[i]?).any (hasKey field key) := by
  have hrow : ∀ (shards : List ExactIndex) (x : ServingRow × Nat), shards.length = snapshotLookupShardCount →
      (x.1.entries.foldl (indexField hash x.2) shards).length = snapshotLookupShardCount ∧
        shardPostings hash field key (x.1.entries.foldl (indexField hash x.2) shards) =
          shardPostings hash field key shards ++ if hasKey field key x.1 then [x.2] else [] := by
    intro shards x hlen
    rw [hasKey, ← Dict.flatMap_entries_key]
    refine foldl_append (fun shards : List ExactIndex => shards.length = snapshotLookupShardCount)
      (shardPostings hash field key) (fun shards member h => ?_) hlen _
    simpa using shardPostings_indexField hash h x.2 member field key
  have hempty : shardPostings hash field key (List.replicate snapshotLookupShardCount ∅) = [] := by
    have hlt : snapshotLookupShardForLookupKey hash key < snapshotLookupShardCount := Nat.mod_lt _ (by decide)
    simp [shardPostings, getD_eq_getElem?_getD, hlt, ExactIndex.postings, Dict.getD]
  have hlength : (List.replicate snapshotLookupShardCount (∅ : ExactIndex)).length = snapshotLookupShardCount :=
    length_replicate
  have hall := (foldl_append _ _ hrow hlength rows.zipIdx).2
  rw [hempty, nil_append, flatMap_zipIdx] at hall
  exact hall

/-! ### Equality lookups -/

def ExactLookupPredicate.admits (predicate : ExactLookupPredicate) (row : ServingRow) : Bool :=
  predicate.values.any fun key => hasKey predicate.field key row

namespace SnapshotLookupCache

variable (cache : SnapshotLookupCache) {predicates : List ExactLookupPredicate} {i : Nat}

theorem exactFieldRows_eq (shard : Nat) (field : String) (values : List SnapshotLookupKey) :
    cache.exactFieldRows shard field values = values.flatMap ((cache.shards.getD shard ∅).postings field) := by
  unfold exactFieldRows ExactIndex.postings Dict.getD
  cases (cache.shards.getD shard ∅).lookup field with
  | none => simp
  | some index => simp

theorem mem_predicateRows {predicate : ExactLookupPredicate} : i ∈ cache.predicateRows hash predicate ↔
      ∃ key ∈ predicate.values, i ∈ shardPostings hash predicate.field key cache.shards := by
  simp only [predicateRows, exactFieldRows_eq, mem_flatMap, mem_dedup, mem_map, mem_filter, decide_eq_true_eq]
  constructor
  · rintro ⟨_, _, key, ⟨hkey, rfl⟩, hi⟩
    exact ⟨key, hkey, hi⟩
  · rintro ⟨key, hkey, hi⟩
    exact ⟨_, ⟨key, hkey, rfl⟩, key, ⟨hkey, rfl⟩, hi⟩

theorem mem_intersectRows_some {existing : List Nat} : i ∈ cache.intersectRows hash (some existing) predicates ↔
      i ∈ existing ∧ ∀ predicate ∈ predicates, i ∈ cache.predicateRows hash predicate := by
  induction predicates generalizing existing with
  | nil => simp [intersectRows]
  | cons predicate predicates ih =>
    have hkept : ∀ j, j ∈ (existing.filter fun row => row ∈ cache.predicateRows hash predicate) ↔
        j ∈ existing ∧ j ∈ cache.predicateRows hash predicate := by
      intro j
      rw [mem_filter, decide_eq_true_eq]
    rw [forall_mem_cons, ← and_assoc, ← hkept]
    unfold intersectRows
    dsimp only
    split
    · rename_i hnone
      simp [hnone]
    · exact ih

theorem mem_intersectRows_none (hne : predicates ≠ []) : i ∈ cache.intersectRows hash none predicates ↔
      ∀ predicate ∈ predicates, i ∈ cache.predicateRows hash predicate := by
  obtain ⟨predicate, predicates, rfl⟩ := exists_cons_of_ne_nil hne
  rw [forall_mem_cons]
  unfold intersectRows
  dsimp only
  split
  · rename_i hnone
    simp [hnone]
  · exact cache.mem_intersectRows_some hash

end SnapshotLookupCache

section

variable (rows : List ServingRow)

theorem mem_predicateRows_built {predicate : ExactLookupPredicate} {i : Nat} :
    i ∈ (buildInMemorySnapshotLookupCache hash rows).predicateRows hash predicate ↔
      i < rows.length ∧ (rows[i]?).any predicate.admits = true := by
  rw [mem_predicateRows, buildInMemorySnapshotLookupCache]
  simp only [shardPostings_buildSnapshotLookupExactIndexShards, mem_filter, mem_range]
  cases hrow : rows[i]? with
  | none => simp
  | some row =>
    simp only [Option.any_some, ExactLookupPredicate.admits, any_eq_true]
    constructor
    · rintro ⟨key, hkey, hi, hhas⟩
      exact ⟨hi, key, hkey, hhas⟩
    · rintro ⟨hi, key, hkey, hhas⟩
      exact ⟨key, hkey, hi, hhas⟩

theorem executeSnapshotExactLookupRowRefs_built {predicates : List ExactLookupPredicate}
    (hne : predicates ≠ []) (limit : Nat) :
    (buildInMemorySnapshotLookupCache hash rows).executeSnapshotExactLookupRowRefs hash predicates limit =
      ((List.range rows.length).filter fun i =>
        (rows[i]?).any fun row => predicates.all fun predicate => predicate.admits row).take limit := by
  unfold executeSnapshotExactLookupRowRefs
  congr 1
  apply sort_dedup_eq_filter_range
  intro i
  rw [mem_intersectRows_none _ _ hne]
  simp only [mem_predicateRows_built]
  constructor
  · intro hall
    obtain ⟨predicate, hpredicate⟩ := exists_mem_of_ne_nil _ hne
    obtain ⟨hi, -⟩ := hall predicate hpredicate
    refine ⟨hi, ?_⟩
    rw [getElem?_eq_getElem hi, Option.any_some, all_eq_true]
    intro predicate hpredicate
    simpa [hi] using (hall predicate hpredicate).2
  rintro ⟨hi, hall⟩ predicate hpredicate
  rw [getElem?_eq_getElem hi, Option.any_some, all_eq_true] at hall
  refine ⟨hi, ?_⟩
  rw [getElem?_eq_getElem hi, Option.any_some]
  exact hall predicate hpredicate

end

/-! ### Key range lookups -/

theorem takeInRange_eq (inRange : Nat → Bool) (limit taken : Nat) (rows : List Nat) :
    takeInRange inRange limit taken rows = (rows.filter inRange).take (max (limit - taken) 1) := by
  induction rows generalizing taken with
  | nil => simp [takeInRange]
  | cons row rows ih =>
    unfold takeInRange
    by_cases hrow : inRange row = true
    · rw [if_pos hrow, filter_cons_of_pos hrow]
      by_cases hlast : limit ≤ taken + 1
      · have hone : max (limit - taken) 1 = 1 := by omega
        rw [if_pos hlast, hone, take_succ_cons, take_zero]
      · have hmore : max (limit - taken) 1 = max (limit - (taken + 1)) 1 + 1 := by omega
        rw [if_neg hlast, ih, hmore, take_succ_cons]
    · rw [if_neg hrow, filter_cons_of_neg hrow]
      exact ih taken

variable (text : Value → String)

def rowOrder (field : String) (descending : Bool) (left right : ServingRow) : Ordering :=
  compareRowValues text (left.lookup field) (right.lookup field) descending

def inLookupRange (range : Option RangeLookupPredicate) (row : ServingRow) : Bool :=
  range.all fun range => valueMatchesRange text range (row.lookup range.field)

namespace SnapshotLookupCache

variable (cache : SnapshotLookupCache) (text : Value → String)

theorem orderedRows_perm (orderField : String) (rows : List Nat) : (cache.orderedRows text orderField rows).Perm rows :=
  perm_insertionSort _ _

theorem keyRangeRows_eq (eqField : String) (eqValue : SnapshotLookupKey) (orderField : String)
    (descending : Bool) (range : Option RangeLookupPredicate) (limit : Nat) :
    cache.keyRangeRows hash text eqField eqValue orderField descending range limit =
      let ordered := cache.orderedRows text orderField (shardPostings hash eqField eqValue cache.shards)
      ((if descending then ordered.reverse else ordered).filter fun row => range.all fun range =>
        valueMatchesRange text range (cache.rowFieldValue row range.field)).take (max limit 1) := by
  have hpostings : shardPostings hash eqField eqValue cache.shards =
      (((cache.shards.getD (snapshotLookupShardForLookupKey hash eqValue) ∅).lookup eqField).bind
        fun index => index.lookup eqValue).getD [] := by
    unfold shardPostings ExactIndex.postings Dict.getD
    cases (cache.shards.getD (snapshotLookupShardForLookupKey hash eqValue) ∅).lookup eqField with
    | none => rfl
    | some index => rfl
  unfold keyRangeRows
  dsimp only
  rw [hpostings]
  cases ((cache.shards.getD (snapshotLookupShardForLookupKey hash eqValue) ∅).lookup eqField).bind
      fun index => index.lookup eqValue with
  | none => cases descending <;> simp [orderedRows]
  | some rows => simp only [takeInRange_eq, Nat.sub_zero, Option.getD_some]

end SnapshotLookupCache

theorem compareValues_swap (left right : Value) :
    compareValues text right left = (compareValues text left right).swap := by
  cases left <;> cases right <;> simp only [compareValues] <;>
    first
    | rfl
    | exact Std.OrientedCmp.eq_swap

theorem rowOrder_swap (field : String) (descending : Bool) (left right : ServingRow) :
    rowOrder text field descending right left = (rowOrder text field descending left right).swap := by
  unfold rowOrder compareRowValues
  rw [compareValues_swap text ((left.lookup field).getD .null)]
  split <;> rfl

theorem rowOrder_reverse (field : String) (left right : ServingRow) :
    rowOrder text field true left right = rowOrder text field false right left := by
  rw [rowOrder_swap text field false left right]
  rfl

section

variable (rows : List ServingRow) (text : Value → String) (eqField : String) (eqValue : SnapshotLookupKey)
  (orderField : String) (descending : Bool) (range : Option RangeLookupPredicate)

def keyRangePositions : List Nat :=
  let cache := buildInMemorySnapshotLookupCache hash rows
  let ordered := cache.orderedRows text orderField (shardPostings hash eqField eqValue cache.shards)
  (if descending then ordered.reverse else ordered).filter fun i => (rows[i]?).any (inLookupRange text range)

theorem lt_of_mem_shardPostings {i : Nat}
    (h : i ∈ shardPostings hash eqField eqValue (buildInMemorySnapshotLookupCache hash rows).shards) :
    i < rows.length := by
  rw [buildInMemorySnapshotLookupCache, shardPostings_buildSnapshotLookupExactIndexShards] at h
  exact mem_range.mp (mem_of_mem_filter h)

theorem keyRangeRows_built (limit : Nat) :
    (buildInMemorySnapshotLookupCache hash rows).keyRangeRows hash text eqField eqValue orderField
        descending range limit =
      (keyRangePositions hash rows text eqField eqValue orderField descending range).take (max limit 1) := by
  rw [keyRangeRows_eq]
  dsimp only
  congr 1
  refine filter_congr fun i hi => ?_
  have hmem : i ∈ shardPostings hash eqField eqValue (buildInMemorySnapshotLookupCache hash rows).shards := by
    split at hi
    · exact (orderedRows_perm _ _ _ _).mem_iff.mp (mem_reverse.mp hi)
    · exact (orderedRows_perm _ _ _ _).mem_iff.mp hi
  have hlt := lt_of_mem_shardPostings hash rows eqField eqValue hmem
  simp [rowFieldValue, buildInMemorySnapshotLookupCache, inLookupRange, hlt]

variable {rows} in

theorem pairwise_orderedRows {cmp : ServingRow → ServingRow → Ordering} [Std.TransCmp cmp]
    (hcmp : ∀ a ∈ rows, ∀ b ∈ rows, rowOrder text orderField false a b = cmp a b)
    (positions : List Nat) (hpositions : ∀ i ∈ positions, i < rows.length) :
    ((buildInMemorySnapshotLookupCache hash rows).orderedRows text orderField positions).Pairwise
      fun i j => ∀ a ∈ rows[i]?, ∀ b ∈ rows[j]?, rowOrder text orderField false a b ≠ .gt := by
  let rowAt (i : Nat) : ServingRow := rows[i]?.getD ∅
  have hvalue : ∀ i ∈ positions, rowAt i ∈ rows ∧
      (buildInMemorySnapshotLookupCache hash rows).rowFieldValue i orderField = (rowAt i).lookup orderField := by
    intro i hi
    have hget := getElem?_eq_getElem (hpositions i hi)
    simp [rowAt, rowFieldValue, buildInMemorySnapshotLookupCache, hget]
  have hmap : ((buildInMemorySnapshotLookupCache hash rows).orderedRows text orderField positions).map rowAt =
      TopK.sort cmp (positions.map rowAt) := by
    refine map_insertionSort _ _ rowAt positions fun i hi j hj => ?_
    obtain ⟨hi, hival⟩ := hvalue i hi
    obtain ⟨hj, hjval⟩ := hvalue j hj
    rw [hival, hjval, Ordering.isLE_iff_ne_gt, ← hcmp _ hi _ hj]
    rfl
  have hsorted : TopK.Sorted cmp _ := TopK.sorted_sort (positions.map rowAt)
  rw [← hmap, TopK.Sorted, pairwise_map] at hsorted
  refine hsorted.imp fun {i j} hle a ha b hb => ?_
  obtain rfl : rowAt i = a := by simp [rowAt, Option.mem_def.mp ha]
  obtain rfl : rowAt j = b := by simp [rowAt, Option.mem_def.mp hb]
  rw [hcmp _ (mem_of_getElem? ha) _ (mem_of_getElem? hb)]
  exact Ordering.isLE_iff_ne_gt.mp hle

theorem keyRangePositions_perm : (keyRangePositions hash rows text eqField eqValue orderField descending range).Perm
      ((List.range rows.length).filter fun i => (rows[i]?).any fun row =>
        hasKey eqField eqValue row && inLookupRange text range row) := by
  have hsplit : ((List.range rows.length).filter fun i => (rows[i]?).any fun row =>
      hasKey eqField eqValue row && inLookupRange text range row) =
      ((List.range rows.length).filter fun i => (rows[i]?).any (hasKey eqField eqValue)).filter
        fun i => (rows[i]?).any (inLookupRange text range) := by
    rw [filter_filter]
    refine filter_congr fun i _ => ?_
    cases rows[i]? with
    | none => rfl
    | some row => exact Bool.and_comm _ _
  rw [hsplit, ← shardPostings_buildSnapshotLookupExactIndexShards hash]
  apply List.Perm.filter
  split
  · exact (reverse_perm _).trans (orderedRows_perm _ text orderField _)
  · exact orderedRows_perm _ text orderField _

end

end

end PowdrrEngine
