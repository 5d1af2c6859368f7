import PowdrrEngine.LibList
import PowdrrEngine.ServingPlan

/-! The snapshot lookup. The rows of a checkpoint are held in memory with an index from field and key to
rows, cut into shards by a hash of the key. Equality requests intersect postings, a request for one key
with a range or an order sorts the key's rows. What a lookup answers is compared here with the SQL
meaning of the request over the rows it holds. -/

namespace PowdrrEngine

/-- `SnapshotLookupKey`: the bytes are a letter for the kind and the value's text; the text of a number
is its shortest decimal form, which determines it. -/
inductive SnapshotLookupKey where
  | string (text : String)
  | number (n : Number)
  | bool (b : Bool)
  deriving DecidableEq

/-- Nulls, arrays and objects have no key. -/
def encodeExactLookupKey : Value → Option SnapshotLookupKey
  | .string text => some (.string text)
  | .number n => some (.number n)
  | .bool b => some (.bool b)
  | _ => none

structure ExactLookupPredicate where
  field : String
  values : List SnapshotLookupKey
  deriving DecidableEq

structure RangeLookupPredicate where
  field : String
  gt : Option Value
  gte : Option Value
  lt : Option Value
  lte : Option Value
  deriving DecidableEq

inductive SnapshotLookupPlan where
  | exact (predicates : List ExactLookupPredicate)
  | keyRange (eqField : String) (eqValue : SnapshotLookupKey) (orderField : String) (descending : Bool)
      (range : Option RangeLookupPredicate)
  deriving DecidableEq

namespace ReadPredicate

variable (filter : ReadPredicate)

def hasEq : Bool := filter.eq.isSome || filter.inValues.isSome

def hasRange : Bool := filter.gt.isSome || filter.gte.isSome || filter.lt.isSome || filter.lte.isSome

/-- The body of the loop of `exact_lookup_predicates`. The keys of an `in` list are made distinct. -/
def exactLookupPredicate : Option ExactLookupPredicate :=
  if filter.hasRange then none
  else
    match filter.eq, filter.inValues with
    | some value, _ => (encodeExactLookupKey value).map fun key => ⟨filter.field, [key]⟩
    | none, some values =>
      if values = [] ∨ maxInValues < values.length then none
      else (values.mapM encodeExactLookupKey).map fun keys => ⟨filter.field, keys.dedup⟩
    | none, none => none

/-- The key of an equality filter of a key range request: an `in` list has to have one member. -/
def singleKey : Option SnapshotLookupKey :=
  match filter.eq, filter.inValues with
  | some value, _ => encodeExactLookupKey value
  | none, some [value] => encodeExactLookupKey value
  | none, _ => none

def rangeLookupPredicate : RangeLookupPredicate :=
  { field := filter.field, gt := filter.gt, gte := filter.gte, lt := filter.lt, lte := filter.lte }

end ReadPredicate

variable (request : ReadPlan)

def exactLookupPredicates : Option (List ExactLookupPredicate) :=
  if request.aggregate.isSome ∨ request.orderBy ≠ [] ∨ 0 < request.offset ∨ request.searchAfter.isSome then
    none
  else
    (request.filters.mapM ReadPredicate.exactLookupPredicate).bind fun predicates =>
      if predicates = [] then none else some predicates

/-- The equality filter and the range filter found so far by the loop of `snapshot_lookup_plan`. -/
structure KeyRangeFilters where
  eq : Option (String × SnapshotLookupKey) := none
  range : Option RangeLookupPredicate := none

/-- The body of the loop: at most one filter of each kind, and none of both kinds at once. -/
def KeyRangeFilters.add (found : KeyRangeFilters) (filter : ReadPredicate) : Option KeyRangeFilters :=
  match filter.hasEq, filter.hasRange with
  | true, false =>
    if found.eq.isSome then none
    else filter.singleKey.map fun key => { found with eq := some (filter.field, key) }
  | false, true =>
    if found.range.isSome then none else some { found with range := some filter.rangeLookupPredicate }
  | _, _ => none

/-- The field a key range request is ordered by: the sort field, which must be the range's if there is
one and differ from the key's if there is none, or else the range's field. -/
def keyRangeOrderField (eqField : String) (range : Option RangeLookupPredicate) : Option String :=
  match request.orderBy, range with
  | sort :: _, some range => if range.field = sort.field then some sort.field else none
  | sort :: _, none => if sort.field = eqField then none else some sort.field
  | [], some range => some range.field
  | [], none => none

/-- Equalities on every field, or one equality with a range or an order. -/
def snapshotLookupPlan : Option SnapshotLookupPlan :=
  match exactLookupPredicates request with
  | some predicates => some (.exact predicates)
  | none =>
    if request.aggregate.isSome ∨ 0 < request.offset ∨ request.searchAfter.isSome ∨
        request.filters = [] ∨ 1 < request.orderBy.length then none
    else do
      let found ← request.filters.foldlM KeyRangeFilters.add {}
      let (eqField, eqValue) ← found.eq
      let orderField ← keyRangeOrderField request eqField found.range
      let descending := (request.orderBy.head?.map (·.descending)).getD false
      some (.keyRange eqField eqValue orderField descending found.range)

/-! ### The index -/

def snapshotLookupShardCount : Nat := 32

/-- The postings of one shard: for a field and a key, the positions of the rows that have it. -/
abbrev ExactIndex := Dict String (Dict SnapshotLookupKey (List Nat))

def ExactIndex.postings (index : ExactIndex) (field : String) (key : SnapshotLookupKey) : List Nat :=
  (index.getD field ∅).getD key []

def ExactIndex.push (index : ExactIndex) (field : String) (key : SnapshotLookupKey) (row : Nat) : ExactIndex :=
  index.insert field ((index.getD field ∅).insert key (index.postings field key ++ [row]))

section

variable (hash : SnapshotLookupKey → Nat)

def snapshotLookupShardForLookupKey (key : SnapshotLookupKey) : Nat := hash key % snapshotLookupShardCount

def indexField (row : Nat) (shards : List ExactIndex) (member : Sigma fun _ : String => Value) : List ExactIndex :=
  match encodeExactLookupKey member.2 with
  | none => shards
  | some key =>
    shards.modify (snapshotLookupShardForLookupKey hash key) fun index => index.push member.1 key row

/-- `build_snapshot_lookup_exact_index_shards_from_store`. -/
def buildSnapshotLookupExactIndexShards (rows : List ServingRow) : List ExactIndex :=
  rows.zipIdx.foldl (fun shards (row, position) => row.entries.foldl (indexField hash position) shards)
    (List.replicate snapshotLookupShardCount ∅)

/-- `SnapshotLookupCache`: the rows and the shards of the index over them. -/
structure SnapshotLookupCache where
  rows : List ServingRow
  shards : List ExactIndex

def buildInMemorySnapshotLookupCache (rows : List ServingRow) : SnapshotLookupCache :=
  { rows, shards := buildSnapshotLookupExactIndexShards hash rows }

/-! ### Lookups -/

namespace SnapshotLookupCache

variable (cache : SnapshotLookupCache)

/-- `snapshot_worker_exact_field_rows`. -/
def exactFieldRows (shard : Nat) (field : String) (values : List SnapshotLookupKey) : List Nat :=
  match (cache.shards.getD shard ∅).lookup field with
  | none => []
  | some index => values.flatMap fun value => index.getD value []

def predicateRows (predicate : ExactLookupPredicate) : List Nat :=
  ((predicate.values.map (snapshotLookupShardForLookupKey hash)).dedup).flatMap fun shard =>
    cache.exactFieldRows shard predicate.field
      (predicate.values.filter fun value => snapshotLookupShardForLookupKey hash value = shard)

/-- The loop of `execute_snapshot_exact_lookup_row_refs`; it ends where no row is left. -/
def intersectRows : Option (List Nat) → List ExactLookupPredicate → List Nat
  | found, [] => found.getD []
  | found, predicate :: predicates =>
    let rows := cache.predicateRows hash predicate
    let found :=
      match found with
      | some existing => existing.filter fun row => row ∈ rows
      | none => rows
    if found = [] then [] else intersectRows (some found) predicates

/-- `execute_snapshot_exact_lookup_row_refs`: the distinct rows in their order, at most `limit`. -/
def executeSnapshotExactLookupRowRefs (predicates : List ExactLookupPredicate) (limit : Nat) : List Nat :=
  ((cache.intersectRows hash none predicates).dedup.insertionSort (· ≤ ·)).take limit

/-- `snapshot_row_field_value`. -/
def rowFieldValue (row : Nat) (field : String) : Option Value := (cache.rows[row]?).bind fun row => row.lookup field

end SnapshotLookupCache

/-- `snapshot_row_matches_range` for the value of the range's field. -/
def valueMatchesRange (text : Value → String) (range : RangeLookupPredicate) (value : Option Value) : Bool :=
  match value with
  | none | some .null => false
  | some value =>
    (range.gt.all fun bound => (compareValues text value bound).isGT) &&
      (range.gte.all fun bound => (compareValues text value bound).isGE) &&
      (range.lt.all fun bound => (compareValues text value bound).isLT) &&
      (range.lte.all fun bound => (compareValues text value bound).isLE)

/-- The loop of `snapshot_worker_key_range_rows`: the limit is looked at after a row was taken. -/
def takeInRange (inRange : Nat → Bool) (limit : Nat) : Nat → List Nat → List Nat
  | _, [] => []
  | taken, row :: rows =>
    if inRange row then
      row :: if limit ≤ taken + 1 then [] else takeInRange inRange limit (taken + 1) rows
    else takeInRange inRange limit taken rows

namespace SnapshotLookupCache

variable (cache : SnapshotLookupCache) (text : Value → String)

def orderedRows (orderField : String) (rows : List Nat) : List Nat :=
  rows.insertionSort fun left right =>
    compareRowValues text (cache.rowFieldValue left orderField) (cache.rowFieldValue right orderField)
      false ≠ .gt

/-- `snapshot_worker_key_range_rows` in the shard of the key. The worker keeps the ordered postings for
later requests; they depend on the rows alone. -/
def keyRangeRows (eqField : String) (eqValue : SnapshotLookupKey)
    (orderField : String) (descending : Bool) (range : Option RangeLookupPredicate) (limit : Nat) :
    List Nat :=
  let shard := cache.shards.getD (snapshotLookupShardForLookupKey hash eqValue) ∅
  match (shard.lookup eqField).bind fun index => index.lookup eqValue with
  | none => []
  | some rows =>
    let ordered := cache.orderedRows text orderField rows
    let ordered := if descending then ordered.reverse else ordered
    takeInRange (fun row => range.all fun range =>
      valueMatchesRange text range (cache.rowFieldValue row range.field)) limit 0 ordered

/-- The positions of the rows that a lookup answers. -/
def lookupRowRefs (plan : SnapshotLookupPlan) (limit : Nat) : List Nat :=
  match plan with
  | .exact predicates => cache.executeSnapshotExactLookupRowRefs hash predicates limit
  | .keyRange eqField eqValue orderField descending range =>
    cache.keyRangeRows hash text eqField eqValue orderField descending range limit

end SnapshotLookupCache

end

def normalizedSelect (select : Option (List String)) : Option (List String) :=
  if select = some ["*"] then none else select

/-- `projected_row_value`: a selected field that is no column is looked up in `_source`. -/
def projectedRowValue (select : Option (List String)) (row : ServingRow) : ServingRow :=
  match normalizedSelect select with
  | none => row
  | some fields => fields.foldl (fun projected field =>
    match (row.lookup field).or ((row.lookup "_source").bind fun source => source.get field) with
    | some value => projected.insert field value
    | none => projected) ∅

/-- `snapshot_row_refs_to_projected_values`. -/
def SnapshotLookupCache.projectedValues (cache : SnapshotLookupCache) (request : ReadPlan)
    (rows : List Nat) : List ServingRow :=
  (rows.filterMap fun row => cache.rows[row]?).map (projectedRowValue request.select)

end PowdrrEngine
