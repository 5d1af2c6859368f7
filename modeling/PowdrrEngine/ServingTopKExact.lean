import PowdrrEngine.ServingCache
import PowdrrEngine.ServingTopKBound

/-! When stopping early is exact. The groups are read in the order of their bounds, so when the bound of
the next one is behind the last row wanted, so is every row that is left, unless a bound has overlooked
it. -/

namespace PowdrrEngine

open List Std TopK TransCmp

variable {files : List FileDescriptor}

/-! ### Groups -/

theorem pushBySchema_perm (file : FileDescriptor) (groups : List (List FileDescriptor)) :
    (pushBySchema file groups).flatten.Perm (file :: groups.flatten) := by
  induction groups with
  | nil => exact List.Perm.refl _
  | cons group groups ih =>
    unfold pushBySchema
    split
    · simp only [flatten_cons, append_assoc]
      exact perm_middle
    · exact (ih.append_left group).trans perm_middle

theorem groupFilesBySchema_perm (files : List FileDescriptor) : (groupFilesBySchema files).flatten.Perm files := by
  suffices hgen : ∀ groups, (files.foldl (fun groups file => pushBySchema file groups) groups).flatten.Perm
      (groups.flatten ++ files) from hgen []
  induction files with
  | nil => simp
  | cons file files ih =>
    intro groups
    refine (ih _).trans (((pushBySchema_perm file groups).append_right files).trans ?_)
    exact perm_middle.symm

theorem mem_of_mem_groupFilesBySchema {group : List FileDescriptor} (h : group ∈ groupFilesBySchema files)
    {file : FileDescriptor} (hfile : file ∈ group) : file ∈ files :=
  (groupFilesBySchema_perm files).mem_iff.mp (mem_flatten.mpr ⟨group, h, hfile⟩)

def groupOrder (sort : ReadSort) (left right : OrderedFileGroup) : Ordering :=
  sortedOrder sort.descending left.bestCaseSortValue right.bestCaseSortValue

instance (sort : ReadSort) : Std.TransCmp (groupOrder sort) :=
  transCmp_on OrderedFileGroup.bestCaseSortValue (sortedOrder sort.descending)

section

variable {text : Value → String} {kind : ColumnKind} {sort : ReadSort}

theorem rowOrder_eq_keyOrder {left right : ServingRow} (hleft : kind.holds (sortKey sort.field left))
    (hright : kind.holds (sortKey sort.field right)) :
    rowOrder text sort.field sort.descending left right = keyOrder sort left right :=
  compareRowValues_eq_sortedOrder text hleft hright

variable {files : List FileDescriptor} {fileStats : Dict String IcebergFileStats}
  {sortOrder : List IcebergSortField} {request : ReadPlan} {groups : List OrderedFileGroup}

/-- The sort value of a group is not behind the bound of a file. -/
def OrderedFileGroup.CoversFile (text : Value → String) (fileStats : Dict String IcebergFileStats)
    (sortOrder : List IcebergSortField) (request : ReadPlan) (sort : ReadSort) (group : OrderedFileGroup)
    (file : FileDescriptor) : Prop :=
  ∃ bound, fileSortBound text fileStats sortOrder request sort.field sort.descending file = some bound ∧
    (sortedOrder sort.descending group.bestCaseSortValue bound).isLE = true

theorem orderedFileGroupsForTopK_spec
    (htyped : ∀ file ∈ files, ∀ stats ∈ fileStats.lookup file.filePath, SortStatsTyped kind sort stats)
    (h : orderedFileGroupsForTopK text files fileStats sortOrder request sort.field sort.descending = some groups) :
    (groups.map (·.files)).Perm (groupFilesBySchema files) ∧ TopK.Sorted (groupOrder sort) groups ∧
      ∀ group ∈ groups, kind.holds group.bestCaseSortValue ∧
        ∀ file ∈ group.files, group.CoversFile text fileStats sortOrder request sort file := by
  simp only [orderedFileGroupsForTopK, Run.bind_eq_some] at h
  obtain ⟨unsorted, hmapM, hsorted⟩ := h
  cases hsorted
  have hforall := Lists.forall₂_of_mapM hmapM
  have hfiles : unsorted.map (·.files) = groupFilesBySchema files := by
    have hid : (groupFilesBySchema files).map id = unsorted.map (·.files) := by
      refine Lists.map_eq_map_of_forall₂ (hforall.imp fun group ordered hordered => ?_)
      obtain ⟨bound, -, rfl⟩ := Option.map_eq_some_iff.mp hordered
      rfl
    rw [← hid, map_id]
  have hgroup : ∀ group ∈ unsorted, kind.holds group.bestCaseSortValue ∧
      ∀ file ∈ group.files, group.CoversFile text fileStats sortOrder request sort file := by
    intro group hmem
    obtain ⟨members, hmembers, hordered⟩ := Lists.exists_mem_of_forall₂ hforall hmem
    obtain ⟨bound, hbound, rfl⟩ := Option.map_eq_some_iff.mp hordered
    obtain ⟨hholds, -, hall⟩ := fileGroupSortBound_spec (fun file hfile b hb => by
      obtain ⟨-, -, hkind, -⟩ := fileSortBound_cases (htyped file (mem_of_mem_groupFilesBySchema hmembers hfile)) hb
      exact hkind) (by simp) hbound
    exact ⟨hholds, hall⟩
  have hsort : (unsorted.insertionSort fun left right =>
      (compareSortValues text left.bestCaseSortValue right.bestCaseSortValue sort.descending).isLE = true) =
        TopK.sort (groupOrder sort) unsorted :=
    insertionSort_eq_sort fun a ha b hb => compareSortValues_eq (hgroup a ha).1 (hgroup b hb).1
  rw [hsort]
  have hperm : (TopK.sort (groupOrder sort) unsorted).Perm unsorted := perm_insertionSort _ _
  refine ⟨hfiles ▸ hperm.map _, sorted_sort _, fun group hmem => hgroup group (hperm.mem_iff.mp hmem)⟩

end

/-! ### The rows of a plan -/

/-- The rows of files that a plan selects, with all their columns. -/
def ServingStore.selectedRows (store : ServingStore) (deleteFiles : List String) (request : ReadPlan)
    (files : List FileDescriptor) : List ServingRow :=
  (store.fullScan deleteFiles files).filter (request.holds sqlCompare)

section

variable (store : ServingStore) (deleteFiles : List String) (request : ReadPlan) {files : List FileDescriptor}

include store deleteFiles request

theorem ServingStore.selectedRows_perm_groups {groups : List OrderedFileGroup}
    (hfiles : (groups.map (·.files)).Perm (groupFilesBySchema files)) :
    (groups.flatMap fun group => store.selectedRows deleteFiles request group.files).Perm
      (store.selectedRows deleteFiles request files) := by
  have hflat : (groups.flatMap fun group => store.selectedRows deleteFiles request group.files) =
      store.selectedRows deleteFiles request (groups.map (·.files)).flatten := by
    clear hfiles
    induction groups with
    | nil => rfl
    | cons group groups ih =>
      rw [flatMap_cons, ih, map_cons, flatten_cons]
      simp [selectedRows, fullScan]
  rw [hflat]
  have hperm := hfiles.flatten.trans (groupFilesBySchema_perm files)
  exact (hperm.flatMap_right _).filter _

end

theorem ServingStore.mem_selectedRows (store : ServingStore) {deleteFiles : List String} {request : ReadPlan}
    {row : ServingRow} :
    row ∈ store.selectedRows deleteFiles request files ↔ ∃ file ∈ files,
      row ∈ store.fullScan deleteFiles [file] ∧ request.holds sqlCompare row = true := by
  rw [selectedRows, mem_filter, store.mem_fullScan]
  constructor
  · rintro ⟨⟨file, hfile, hrow⟩, hholds⟩
    exact ⟨file, hfile, hrow, hholds⟩
  · rintro ⟨file, hfile, hrow, hholds⟩
    exact ⟨⟨file, hfile, hrow⟩, hholds⟩

/-- Whether a column is among those that a request returns. -/
def ReadPlan.returns (request : ReadPlan) (field : String) : Bool :=
  (normalizedSelect request.select).all fun fields => field ∈ fields

theorem lookup_projectedRowValue {request : ReadPlan} {row : ServingRow} {field : String} {value : Value}
    (h : row.lookup field = some value) :
    (projectedRowValue request.select row).lookup field = if request.returns field then some value else none := by
  unfold projectedRowValue ReadPlan.returns
  cases normalizedSelect request.select with
  | none => exact h
  | some fields =>
    have hnone : (∅ : ServingRow).lookup field = none := rfl
    simp only [Option.all_some, decide_eq_true_eq]
    rw [← hnone]
    generalize (∅ : ServingRow) = projected
    induction fields generalizing projected with
    | nil => rfl
    | cons name fields ih =>
      rw [foldl_cons, ih]
      by_cases hname : field = name
      · subst hname
        simp [h]
      · simp only [mem_cons, hname, false_or]
        refine if_congr Iff.rfl rfl ?_
        split
        · exact AList.lookup_insert_ne hname
        · rfl

/-- A row has a column, with a value of one type or null. -/
def ColumnKind.InRow (kind : ColumnKind) (field : String) (row : ServingRow) : Prop :=
  ∃ value, row.lookup field = some value ∧ kind.holds value

theorem ColumnKind.InRow.holds {kind : ColumnKind} {field : String} {row : ServingRow} (h : kind.InRow field row) :
    kind.holds (sortKey field row) := by
  obtain ⟨value, hlookup, hvalue⟩ := h
  rw [sortKey, hlookup]
  exact hvalue

/-- What is assumed of a top-k plan. Every file has the sort column, of one type in the rows and in the
statistics; the statistics are true of the rows, of which `place` gives the row group; and `execute` answers
the query of the plan. -/
structure TopKScan (store : ServingStore) (deleteFiles : List String) (files : List FileDescriptor)
    (fileStats : Dict String IcebergFileStats)
    (place : String → ServingRow → Option IcebergRowGroupStats)
    (execute : List FileDescriptor → List ServingRow) (request : ReadPlan) (sort : ReadSort) (limit : Nat)
    (kind : ColumnKind) : Prop where
  typed : ∀ file ∈ files, ∀ stats ∈ fileStats.lookup file.filePath, SortStatsTyped kind sort stats
  exact : ∀ file ∈ files, ∀ row ∈ store.fullScan deleteFiles [file],
    ∀ stats ∈ fileStats.lookup file.filePath, RowStatsExact stats (place file.filePath row) row
  rows : ∀ row ∈ store.fullScan deleteFiles files, kind.InRow sort.field row
  executes : ∀ group ∈ groupFilesBySchema files,
    IsScanResult request limit (store.fullScan deleteFiles group) (execute group)

/-- The sort values of returned rows are those of the first rows of all: the returned rows are what a request
returns of some of the selected rows, whose sort values are in order those of the first `limit` rows. -/
def IsTopK (text : Value → String) (request : ReadPlan) (sort : ReadSort) (limit : Nat)
    (rows result : List ServingRow) : Prop :=
  ∃ found : List ServingRow, found.Subperm rows ∧ result = found.map (projectedRowValue request.select) ∧
    TopK.SameKeys (rowOrder text sort.field sort.descending) found
      ((TopK.sort (rowOrder text sort.field sort.descending) rows).take limit)

/-- At least `limit` rows have a sort value before a bound. -/
def EnoughBefore (sort : ReadSort) (limit : Nat) (rows : List ServingRow) (bound : Value) : Prop :=
  0 < limit ∧
    limit ≤ rows.countP fun row => sortedOrder sort.descending (sortKey sort.field row) bound = .lt

section

variable {text : Value → String} {store : ServingStore} {deleteFiles : List String}
  {files : List FileDescriptor} {fileStats : Dict String IcebergFileStats}
  {place : String → ServingRow → Option IcebergRowGroupStats}
  {execute : List FileDescriptor → List ServingRow} {request : ReadPlan} {sort : ReadSort} {limit : Nat}
  {kind : ColumnKind} {rows seen found all : List ServingRow}

namespace TopKScan

section

variable (hscan : TopKScan store deleteFiles files fileStats place execute request sort limit kind)
  {group : List FileDescriptor}

include hscan

theorem inRow_selected (hgroup : ∀ file ∈ group, file ∈ files) :
    ∀ row ∈ store.selectedRows deleteFiles request group, kind.InRow sort.field row := fun row hrow =>
  hscan.rows row (store.fullScan_subset deleteFiles hgroup row (mem_filter.mp hrow).1)

theorem exists_answer (hsort : request.orderBy.head? = some sort) (hmem : group ∈ groupFilesBySchema files) :
    ∃ answer, execute group = answer.map (projectedRowValue request.select) ∧
      TopK.IsFirst (keyOrder sort) limit (store.selectedRows deleteFiles request group) answer := by
  obtain ⟨selected, hperm, hsorted, hresult⟩ := hscan.executes group hmem
  have hholds : ∀ row ∈ selected, kind.holds (sortKey sort.field row) := fun row hrow =>
    (hscan.inRow_selected (fun _ => mem_of_mem_groupFilesBySchema hmem) row (hperm.mem_iff.mp hrow)).holds
  refine ⟨selected.take limit, hresult, selected, hperm, ?_, rfl⟩
  refine hsorted.imp_of_mem fun {left right} hleft hright hle => ?_
  refine sortedOrder_isLE_of_sqlOrder (hholds left hleft) (hholds right hright) fun hgt => hle ?_
  cases horder : request.orderBy with
  | nil => rw [horder] at hsort; cases hsort
  | cons first rest =>
    rw [horder, List.head?_cons, Option.some.injEq] at hsort
    rw [hsort, sqlRowOrder, hgt]
    rfl

end

end TopKScan

/-! ### Rows with their sort value -/

section

variable (hreturns : request.returns sort.field = true)

include hreturns

theorem lookup_projected {row : ServingRow} (h : kind.InRow sort.field row) :
    (projectedRowValue request.select row).lookup sort.field = row.lookup sort.field := by
  obtain ⟨value, hlookup, -⟩ := h
  rw [lookup_projectedRowValue hlookup, if_pos hreturns, hlookup]

theorem mergeRows_map (hsort : request.orderBy.head? = some sort) {new : List ServingRow}
    (hrows : ∀ row ∈ rows ++ new, kind.InRow sort.field row) :
    mergeRows text (rows.map (projectedRowValue request.select)) (new.map (projectedRowValue request.select)) request
        limit =
      ((TopK.sort (keyOrder sort) (rows ++ new)).take limit).map (projectedRowValue request.select) := by
  have hmap := map_insertionSort (fun left right => (keyOrder sort left right).isLE = true)
    (fun left right => (rowOrder text sort.field sort.descending left right).isLE = true)
    (projectedRowValue request.select) (rows ++ new) fun left hleft right hright => by
      rw [rowOrder, lookup_projected hreturns (hrows left hleft), lookup_projected hreturns (hrows right hright),
        ← rowOrder_eq_keyOrder (hrows left hleft).holds (hrows right hright).holds, rowOrder]
  rw [mergeRows, hsort, ← map_append]
  dsimp only
  rw [← hmap, map_take]
  rfl

/-- The test of the loop counts the rows before the bound of the next group. -/
theorem remainingGroupsCannotBeatKthRow_iff (hfound : TopK.IsFirst (keyOrder sort) limit all found)
    (hall : ∀ row ∈ all, kind.InRow sort.field row) {next : Value} (hnext : kind.holds next) :
    remainingGroupsCannotBeatKthRow text (found.map (projectedRowValue request.select)) next sort limit = true ↔
      EnoughBefore sort limit all next := by
  have hcount := hfound.forall_iff (p := fun row =>
      decide (sortedOrder sort.descending (sortKey sort.field row) next = .lt)) fun a _ b _ ha hb => by
    have hlt : sortedOrder sort.descending (sortKey sort.field a) next = .lt := of_decide_eq_true ha
    have hge : (sortedOrder sort.descending next (sortKey sort.field b)).isLE = true :=
      OrientedCmp.isGE_iff_isLE.mp (Ordering.isGE_iff_ne_lt.mpr (of_decide_eq_false hb))
    unfold keyOrder
    exact lt_of_lt_of_isLE hlt hge
  unfold remainingGroupsCannotBeatKthRow EnoughBefore
  rw [length_map, ← hcount]
  split
  · rename_i hshort
    refine iff_of_false Bool.false_ne_true ?_
    rintro ⟨hpos, hlength, -⟩
    omega
  rename_i hlimit
  have hlength : found.length = limit := by
    have hle := hfound.length_le
    omega
  have hlast : found.getLast? = found[limit - 1]? := by rw [List.getLast?_eq_getElem?, hlength]
  obtain ⟨kth, hkth⟩ : ∃ kth, found[limit - 1]? = some kth := ⟨_, List.getElem?_eq_getElem (by omega)⟩
  obtain ⟨value, hlookup, hvalue⟩ := hall kth (hfound.mem (mem_of_getElem? hkth))
  have hprojected := lookup_projected hreturns (hall kth (hfound.mem (mem_of_getElem? hkth)))
  have hkey : sortKey sort.field kth = value := by rw [sortKey, hlookup]; rfl
  rw [getElem?_map, hkth, Option.map_some, Option.bind_some, hprojected, hlookup]
  simp only [decide_eq_true_eq, compareSortValues_eq hnext hvalue, hlength, true_and]
  constructor
  · intro hgt
    refine ⟨by omega, fun row hrow => ?_⟩
    have hle : (keyOrder sort row kth).isLE = true := isLE_getLast hfound.sorted hrow (hlast.trans hkth)
    exact lt_of_isLE_of_lt hle (by rw [hkey]; exact OrientedCmp.lt_of_gt hgt)
  · rintro ⟨-, hbefore⟩
    rw [← hkey]
    exact OrientedCmp.gt_of_lt (hbefore kth (mem_of_getElem? hkth))

omit hreturns in
theorem length_eq_of_enoughBefore (hfound : TopK.IsFirst (keyOrder sort) limit all found) {bound : Value}
    (h : EnoughBefore sort limit all bound) : found.length = limit := by
  have hle : limit ≤ all.length := h.2.trans countP_le_length
  rw [hfound.length_eq, Nat.min_eq_left hle]

theorem isTopK_iff (hfound : TopK.IsFirst (keyOrder sort) limit seen found) {left : List ServingRow}
    (hall : ∀ row ∈ all, kind.InRow sort.field row) (hperm : (seen ++ left).Perm all) :
    IsTopK text request sort limit all (found.map (projectedRowValue request.select)) ↔
      TopK.SameKeys (keyOrder sort) found ((TopK.sort (keyOrder sort) all).take limit) := by
  have hfirst : TopK.IsFirst (keyOrder sort) limit all _ := isFirst_sort limit all
  have hsort : TopK.sort (rowOrder text sort.field sort.descending) all = TopK.sort (keyOrder sort) all :=
    insertionSort_eq_sort fun a ha b hb => rowOrder_eq_keyOrder (hall a ha).holds (hall b hb).holds
  have hsub : found.Subperm all := by
    obtain ⟨l, hl, -, rfl⟩ := hfound
    exact (take_sublist limit l).subperm.trans ((hl.subperm.trans (sublist_append_left _ _).subperm).trans hperm.subperm)
  have hkeys : ∀ {l : List ServingRow}, l ⊆ all →
      (l.map (projectedRowValue request.select)).map (sortKey sort.field) = l.map (sortKey sort.field) := by
    intro l hl
    rw [map_map]
    refine map_congr_left fun row hrow => ?_
    rw [Function.comp_apply, sortKey, sortKey, lookup_projected hreturns (hall row (hl hrow))]
  unfold IsTopK
  rw [hsort]
  constructor
  · rintro ⟨found', hsub', heq, hsame⟩
    rw [sameKeys_congr fun a ha b hb => rowOrder_eq_keyOrder (hall a (hsub'.subset ha)).holds
      (hall b (hfirst.mem hb)).holds] at hsame
    have hmap := congrArg (List.map (sortKey sort.field)) heq
    rw [hkeys hsub.subset, hkeys hsub'.subset] at hmap
    have hleft := (forall₂_map_left_iff (f := sortKey sort.field)
      (R := fun key row => sortedOrder sort.descending key (sortKey sort.field row) = .eq)).mpr hsame
    rw [← hmap] at hleft
    exact forall₂_map_left_iff.mp hleft
  · intro hsame
    refine ⟨found, hsub, rfl, ?_⟩
    rwa [sameKeys_congr fun a ha b hb => rowOrder_eq_keyOrder (hall a (hsub.subset ha)).holds
      (hall b (hfirst.mem hb)).holds]

end

/-! ### Stopping early -/

/-- Where enough of the rows read are before the bound of the next group, no row that is left and that the
bounds overlook comes before the last of the first rows read: of these, `limit` are not behind it. -/
def SafeToStop (store : ServingStore) (deleteFiles : List String)
    (place : String → ServingRow → Option IcebergRowGroupStats) (request : ReadPlan) (sort : ReadSort) (limit : Nat)
    (read : List ServingRow) (left : List OrderedFileGroup) : Prop :=
  ∀ next ∈ left.head?, EnoughBefore sort limit read next.bestCaseSortValue →
    ∀ group ∈ left, ∀ file ∈ group.files, ∀ row ∈ store.fullScan deleteFiles [file],
      request.holds sqlCompare row = true → Overlooked request sort (place file.filePath row) row →
        limit ≤ TopK.upTo (keyOrder sort) row read

/-- Stopping is safe behind every part of the groups. -/
def StopsSafely (store : ServingStore) (deleteFiles : List String)
    (place : String → ServingRow → Option IcebergRowGroupStats) (request : ReadPlan) (sort : ReadSort) (limit : Nat)
    (groups : List OrderedFileGroup) : Prop :=
  ∀ front left, groups = front ++ left → SafeToStop store deleteFiles place request sort limit
    (front.flatMap fun group => store.selectedRows deleteFiles request group.files) left

/-- The bound of a group is not behind a row of it that is not overlooked. -/
def OrderedFileGroup.Bounds (store : ServingStore) (deleteFiles : List String)
    (place : String → ServingRow → Option IcebergRowGroupStats) (request : ReadPlan) (sort : ReadSort)
    (group : OrderedFileGroup) : Prop :=
  ∀ file ∈ group.files, ∀ row ∈ store.fullScan deleteFiles [file],
    ¬ Overlooked request sort (place file.filePath row) row →
      (sortedOrder sort.descending group.bestCaseSortValue (sortKey sort.field row)).isLE = true

section

variable {next : OrderedFileGroup} {left : List OrderedFileGroup}

theorem safeToStop_iff (hnext : left.head? = some next) (hsorted : TopK.Sorted (groupOrder sort) left)
    (hbounds : ∀ group ∈ left, group.Bounds store deleteFiles place request sort)
    (henough : EnoughBefore sort limit seen next.bestCaseSortValue) :
    SafeToStop store deleteFiles place request sort limit seen left ↔
      ∀ row ∈ left.flatMap fun group => store.selectedRows deleteFiles request group.files,
        limit ≤ TopK.upTo (keyOrder sort) row seen := by
  constructor
  · intro hsafe row hrow
    obtain ⟨group, hgroup, hmem⟩ := mem_flatMap.mp hrow
    obtain ⟨file, hfile, hscanned, hholds⟩ := store.mem_selectedRows.mp hmem
    by_cases hover : Overlooked request sort (place file.filePath row) row
    · exact hsafe next hnext henough group hgroup file hfile row hscanned hholds hover
    -- a row that was not overlooked is behind the bound of its group, and so behind the next bound
    have hnextGroup : (sortedOrder sort.descending next.bestCaseSortValue group.bestCaseSortValue).isLE = true := by
      obtain ⟨rest, rfl⟩ := List.head?_eq_some_iff.mp hnext
      rcases mem_cons.mp hgroup with rfl | hgroup
      · exact isLE_self _
      · exact (pairwise_cons.mp hsorted).1 group hgroup
    have hle := isLE_trans hnextGroup (hbounds group hgroup file hfile row hscanned hover)
    refine henough.2.trans (countP_mono_left fun read _ hlt => ?_)
    have hbefore := lt_of_lt_of_isLE (of_decide_eq_true hlt) hle
    exact (congrArg Ordering.isLE hbefore).trans rfl
  · intro hall _ _ _ group hgroup file hfile row hscanned hholds _
    exact hall row (mem_flatMap.mpr ⟨group, hgroup, store.mem_selectedRows.mpr ⟨file, hfile, hscanned, hholds⟩⟩)

/-- Where stopping is safe, it stays safe behind more of the groups. -/
theorem safeToStop_append {front : List OrderedFileGroup} (hnext : (front ++ left).head? = some next)
    (hsorted : TopK.Sorted (groupOrder sort) (front ++ left))
    (hbounds : ∀ group ∈ front ++ left, group.Bounds store deleteFiles place request sort)
    (henough : EnoughBefore sort limit seen next.bestCaseSortValue)
    (hsafe : SafeToStop store deleteFiles place request sort limit seen (front ++ left)) :
    SafeToStop store deleteFiles place request sort limit
      (seen ++ front.flatMap fun group => store.selectedRows deleteFiles request group.files) left := by
  have hrows := (safeToStop_iff hnext hsorted hbounds henough).mp hsafe
  intro _ _ _ group hgroup file hfile row hrow hholds _
  have hmany := hrows row (mem_flatMap.mpr ⟨group, mem_append_right _ hgroup,
    store.mem_selectedRows.mpr ⟨file, hfile, hrow, hholds⟩⟩)
  rw [upTo_append]
  omega

/-- Stopping before the next group, with enough rows before its bound. -/
theorem isTopK_iff_safeToStop (hreturns : request.returns sort.field = true)
    (hall : ∀ row ∈ all, kind.InRow sort.field row) (hfound : TopK.IsFirst (keyOrder sort) limit seen found)
    (hperm : (seen ++ left.flatMap fun group => store.selectedRows deleteFiles request group.files).Perm all)
    (hnext : left.head? = some next) (hsorted : TopK.Sorted (groupOrder sort) left)
    (hbounds : ∀ group ∈ left, group.Bounds store deleteFiles place request sort)
    (henough : EnoughBefore sort limit seen next.bestCaseSortValue) :
    IsTopK text request sort limit all (found.map (projectedRowValue request.select)) ↔
      SafeToStop store deleteFiles place request sort limit seen left := by
  have hglobal : TopK.IsFirst (keyOrder sort) limit _ _ := (isFirst_sort limit all).perm hperm.symm
  rw [isTopK_iff hreturns hfound hall hperm, safeToStop_iff hnext hsorted hbounds henough]
  exact hfound.sameKeys_append_iff hglobal (length_eq_of_enoughBefore hfound henough)

end

/-- **The loop**, over the groups that are left. `seen` are the rows of the groups read, of which `found` are
the first. -/
theorem isTopK_executeOrderedTopKLoop_iff (hreturns : request.returns sort.field = true)
    (hsort : request.orderBy.head? = some sort) (hall : ∀ row ∈ all, kind.InRow sort.field row)
    {groups : List OrderedFileGroup}
    (hexecute : ∀ group ∈ groups, ∃ answer, execute group.files = answer.map (projectedRowValue request.select) ∧
      TopK.IsFirst (keyOrder sort) limit (store.selectedRows deleteFiles request group.files) answer)
    (hkinds : ∀ group ∈ groups, kind.holds group.bestCaseSortValue) (hsorted : TopK.Sorted (groupOrder sort) groups)
    (hbounds : ∀ group ∈ groups, group.Bounds store deleteFiles place request sort)
    (hfound : TopK.IsFirst (keyOrder sort) limit seen found)
    (hperm : (seen ++ groups.flatMap fun group => store.selectedRows deleteFiles request group.files).Perm all) :
    IsTopK text request sort limit all (executeOrderedTopKLoop text execute request sort limit groups
        (found.map (projectedRowValue request.select))).1 ↔
      ∀ front left, groups = front ++ left → front ≠ [] → SafeToStop store deleteFiles place request sort limit
        (seen ++ front.flatMap fun group => store.selectedRows deleteFiles request group.files) left := by
  induction groups generalizing seen found with
  | nil =>
    rw [flatMap_nil] at hperm
    refine iff_of_true ((isTopK_iff hreturns hfound hall hperm).mpr ?_) ?_
    · rw [append_nil] at hperm
      exact (hfound.perm hperm).sameKeys (isFirst_sort limit all)
    · intro front left hsplit hne
      exact absurd (append_eq_nil_iff.mp hsplit.symm).1 hne
  | cons group groups ih =>
    obtain ⟨answer, hanswer, hfirst⟩ := hexecute group mem_cons_self
    rw [flatMap_cons, ← append_assoc] at hperm
    have hmem : ∀ row ∈ seen ++ store.selectedRows deleteFiles request group.files, kind.InRow sort.field row :=
      fun row hrow => hall row (hperm.mem_iff.mp (mem_append_left _ hrow))
    have hmerge : mergeRows text (found.map (projectedRowValue request.select)) (execute group.files) request limit =
        ((TopK.sort (keyOrder sort) (found ++ answer)).take limit).map (projectedRowValue request.select) := by
      rw [hanswer]
      refine mergeRows_map hreturns hsort fun row hrow => hmem row ?_
      exact (mem_append.mp hrow).elim (fun h => mem_append_left _ (hfound.mem h))
        fun h => mem_append_right _ (hfirst.mem h)
    have hmerged := hfound.merge hfirst
    generalize (TopK.sort (keyOrder sort) (found ++ answer)).take limit = found' at hmerge hmerged
    have hsorted' := (pairwise_cons.mp hsorted).2
    have hbounds' : ∀ other ∈ groups, other.Bounds store deleteFiles place request sort := fun other hother =>
      hbounds other (mem_cons_of_mem _ hother)
    rw [forall_fronts_cons, executeOrderedTopKLoop, hmerge]
    simp only [flatMap_cons, ← append_assoc]
    split
    · rename_i hstop
      obtain ⟨next, hnext, hcannot⟩ := Run.of_any hstop
      have henough := (remainingGroupsCannotBeatKthRow_iff hreturns hmerged hmem
        (hkinds next (mem_cons_of_mem _ (mem_of_mem_head? hnext)))).mp hcannot
      rw [isTopK_iff_safeToStop hreturns hall hmerged hperm hnext hsorted' hbounds' henough]
      constructor
      · rintro hsafe front left rfl
        exact safeToStop_append hnext hsorted' hbounds' henough hsafe
      · intro hsafe
        simpa using hsafe [] groups rfl
    · rename_i hgoes
      rw [ih (fun other hother => hexecute other (mem_cons_of_mem _ hother))
        (fun other hother => hkinds other (mem_cons_of_mem _ hother)) hsorted' hbounds' hmerged hperm]
      constructor
      · intro hsafe front left hsplit
        by_cases hne : front = []
        · -- the loop goes on because there are not enough rows before the next bound
          subst hne
          obtain rfl : groups = left := hsplit
          rw [flatMap_nil, append_nil]
          intro next hnext henough
          rw [Option.mem_def.mp hnext, Option.any_some] at hgoes
          refine absurd ((remainingGroupsCannotBeatKthRow_iff hreturns hmerged hmem ?_).mpr henough) hgoes
          exact hkinds next (mem_cons_of_mem _ (mem_of_mem_head? hnext))
        · exact hsafe front left hsplit hne
      · exact fun hsafe front left hsplit _ => hsafe front left hsplit

/-! ### Rows without their sort value -/

theorem mergeRows_unsorted (hsort : request.orderBy.head? = some sort) {new : List ServingRow}
    (hrows : ∀ row ∈ rows ++ new, row.lookup sort.field = none) :
    mergeRows text rows new request limit = (rows ++ new).take limit := by
  rw [mergeRows, hsort]
  refine congrArg (List.take limit) (Pairwise.insertionSort_eq ?_)
  refine pairwise_of_forall_mem_list fun left hleft right hright => ?_
  rw [rowOrder, hrows left hleft, hrows right hright]
  cases sort.descending <;> rfl

/-- Without sort values the loop never stops early and appends what the groups answer. -/
theorem executeOrderedTopKLoop_unsorted (hsort : request.orderBy.head? = some sort) {groups : List OrderedFileGroup}
    (hgroups : ∀ group ∈ groups, ∀ row ∈ execute group.files, row.lookup sort.field = none)
    (hrows : ∀ row ∈ rows, row.lookup sort.field = none) (hlength : rows.length ≤ limit) :
    (executeOrderedTopKLoop text execute request sort limit groups rows).1 =
      (rows ++ groups.flatMap fun group => execute group.files).take limit := by
  induction groups generalizing rows with
  | nil => rw [executeOrderedTopKLoop, flatMap_nil, append_nil, take_of_length_le hlength]
  | cons group groups ih =>
    have hboth : ∀ row ∈ rows ++ execute group.files, row.lookup sort.field = none := fun row hrow =>
      (mem_append.mp hrow).elim (hrows row) (hgroups group mem_cons_self row)
    have htaken : ∀ row ∈ (rows ++ execute group.files).take limit, row.lookup sort.field = none := fun row hrow =>
      hboth row (mem_of_mem_take hrow)
    have hgoes : (groups.head?.any fun next => remainingGroupsCannotBeatKthRow text
        ((rows ++ execute group.files).take limit) next.bestCaseSortValue sort limit) = false := by
      cases groups.head? with
      | none => rfl
      | some next =>
        have hkth : (((rows ++ execute group.files).take limit)[limit - 1]?.bind fun row => row.lookup sort.field) =
            none := Option.bind_eq_none_iff.mpr fun row hrow => htaken row (mem_of_getElem? hrow)
        simp [remainingGroupsCannotBeatKthRow, hkth]
    rw [executeOrderedTopKLoop, mergeRows_unsorted hsort hboth, hgoes, if_neg Bool.false_ne_true,
      ih (fun other hother => hgroups other (mem_cons_of_mem _ hother)) htaken (length_take_le _ _), flatMap_cons,
      ← append_assoc]
    generalize rows ++ execute group.files = front
    rcases Nat.le_total limit front.length with hle | hle
    · rw [take_append_of_le_length (length_take_of_le hle).ge, take_take, Nat.min_self, take_append_of_le_length hle]
    · rw [take_of_length_le hle]

/-! ### The plan -/

end

/-! ### Two files, one with a null -/

def score (n : Nat) : Value := .number (.posInt n)

def scoreRow (value : Value) : ServingRow := AList.singleton "score" value

/-- The files `a` and `b`, of different schemas: `a` has the score 10, `b` the score 5 and a null. -/
def scoreFiles : List FileDescriptor := [⟨"a", ⟨[]⟩, 1⟩, ⟨"b", ⟨[⟨"score", .integer⟩]⟩, 1⟩]

def scoreStore : ServingStore :=
  { rows := fun path => if path = "a" then [scoreRow (score 10)] else [scoreRow (score 5), scoreRow .null]
    deletedKeys := fun _ => [] }

def scoreStats (path : String) (n nulls : Nat) : IcebergFileStats :=
  { filePath := path, recordCount := some (nulls + 1), partitionValues := [], rowGroups := []
    columns := [⟨1, "score", some nulls, some (score n), some (score n)⟩] }

def scoreFileStats : Dict String IcebergFileStats :=
  ((∅ : Dict String IcebergFileStats).insert "a" (scoreStats "a" 10 0)).insert "b" (scoreStats "b" 5 1)

variable (descending : Bool)

/-- The first row by score. -/
def topScore : ReadPlan := { orderBy := [⟨"score", descending⟩], limit := some 1 }

def scoreQuery (files : List FileDescriptor) : List ServingRow :=
  if files.map (·.filePath) = ["a"] then [scoreRow (score 10)]
  else if descending then [scoreRow .null] else [scoreRow (score 5)]

theorem scoreScan : TopKScan scoreStore [] scoreFiles scoreFileStats (fun _ _ => none) (scoreQuery descending)
      (topScore descending) ⟨"score", descending⟩ 1 .number := by
  refine ⟨?_, ?_, ?_, ?_⟩
  · simp only [sortStatsTyped_iff, ColumnKind.holds]
    decide +kernel
  · simp only [rowStatsExact_iff, fileStatsExact_iff, columnStatsExact_iff]
    decide +kernel
  · have hholds : ∀ row ∈ scoreStore.fullScan [] scoreFiles, (row.lookup "score").isSome = true ∧
        (sortKey "score" row = .null ∨ ColumnKind.number.has (sortKey "score" row) = true) := by decide +kernel
    intro row hrow
    obtain ⟨hsome, hvalue⟩ := hholds row hrow
    obtain ⟨value, hlookup⟩ := Option.isSome_iff_exists.mp hsome
    refine ⟨value, hlookup, ?_⟩
    rwa [sortKey, hlookup] at hvalue
  intro group hgroup
  have hgroups : groupFilesBySchema scoreFiles = [[⟨"a", ⟨[]⟩, 1⟩], [⟨"b", ⟨[⟨"score", .integer⟩]⟩, 1⟩]] := by decide
  rcases mem_pair.mp hgroup with rfl | rfl
  · exact ⟨[scoreRow (score 10)], List.Perm.refl _, pairwise_singleton _ _, rfl⟩
  cases descending with
  | false =>
    refine ⟨[scoreRow (score 5), scoreRow .null], List.Perm.refl _, pairwise_pair.mpr ?_, rfl⟩
    decide
  | true =>
    refine ⟨[scoreRow .null, scoreRow (score 5)], List.Perm.swap _ _ _, pairwise_pair.mpr ?_, rfl⟩
    decide

end PowdrrEngine
