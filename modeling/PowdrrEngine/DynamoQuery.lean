import PowdrrEngine.DynamoStore
import PowdrrEngine.LibText
import PowdrrEngine.ServingAdmission
import Mathlib.Data.Char

/-! The reads of the DynamoDB surface. GetItem and BatchGetItem ask for one key, Query for the items of a
partition of the table or of an index, in the order of the sort key and page by page. Each builds a plan
for the serving path; a query reads one row more than its page to see whether there is another. The
expressions of a request are given parsed. -/

namespace PowdrrEngine

/-! ### Targets -/

inductive DynamoDbIndexKind where
  | table
  | localSecondaryIndex
  | globalSecondaryIndex
  deriving DecidableEq

/-- The table or index that a query runs on. -/
structure QueryTarget where
  keySchema : DynamoDbKeySchemaConfig
  uniqueLookup : Bool
  indexKind : DynamoDbIndexKind
  indexName : Option String
  deriving DecidableEq

def secondaryIndexKeySchema (index : DynamoDbGlobalSecondaryIndexConfig) : DynamoDbKeySchemaConfig :=
  ⟨index.partitionKey, index.sortKey⟩

def localSecondaryIndexKeySchema (config : DynamoDbTableConfig) (index : DynamoDbLocalSecondaryIndexConfig) :
    DynamoDbKeySchemaConfig :=
  ⟨config.partitionKey, some index.sortKey⟩

/-- A local index is found before a global one of its name. -/
def queryTarget (config : DynamoDbTableConfig) : Option String → DynamoResult QueryTarget
  | none => .ok ⟨primaryKeySchema config, true, .table, none⟩
  | some indexName =>
    match config.localSecondaryIndexes.find? fun index => index.name = indexName with
    | some index =>
      .ok ⟨localSecondaryIndexKeySchema config index, false, .localSecondaryIndex, some index.name⟩
    | none =>
      match config.globalSecondaryIndexes.find? fun index => index.name = indexName with
      | some index => .ok ⟨secondaryIndexKeySchema index, false, .globalSecondaryIndex, some index.name⟩
      | none => .validation ("Unknown local or global secondary index " ++ indexName)

def validateConsistentRead (consistentRead : Option Bool) (indexKind : DynamoDbIndexKind) : DynamoResult Unit :=
  if consistentRead.getD false ∧ indexKind = .globalSecondaryIndex then
    .validation "Consistent reads are not supported on global secondary indexes"
  else .ok ()

/-! ### Projections -/

inductive SelectMode where
  | allAttributes
  | allProjectedAttributes
  | specificAttributes
  | count
  deriving DecidableEq

def parseSelectMode (select : Option String) (projection : Option (List String)) (indexName : Option String) :
    DynamoResult SelectMode :=
  if projection.isSome ∧ select ≠ some "SPECIFIC_ATTRIBUTES" ∧ select ≠ none then
    .validation "ProjectionExpression can only be used when Select is SPECIFIC_ATTRIBUTES"
  else
    match select with
    | none =>
      .ok (if projection.isSome then .specificAttributes
        else if indexName.isSome then .allProjectedAttributes
        else .allAttributes)
    | some "ALL_ATTRIBUTES" => .ok .allAttributes
    | some "ALL_PROJECTED_ATTRIBUTES" =>
      if indexName = none then .validation "ALL_PROJECTED_ATTRIBUTES requires IndexName"
      else .ok .allProjectedAttributes
    | some "SPECIFIC_ATTRIBUTES" =>
      if projection = none then .validation "SPECIFIC_ATTRIBUTES requires ProjectionExpression"
      else .ok .specificAttributes
    | some "COUNT" => .ok .count
    | some other => .validation ("Unsupported Select value " ++ other)

def queryRequestedProjection (requestedProjection : Option (List String)) (selectMode : SelectMode) :
    Option (List String) :=
  if selectMode = .specificAttributes then requestedProjection else none

def appendSelectedField (fields : List String) (fieldName : String) : List String :=
  if fieldName ∈ fields then fields else fields ++ [fieldName]

def appendSelectedFieldIfInSchema (schema : PowdrrSchema) (fields : List String) (fieldName : String) : List String :=
  if (schema.toMapGet fieldName).isSome then appendSelectedField fields fieldName else fields

mutual

def collectFilterFields (fields : List String) : FilterNode → List String
  | .predicate predicate => appendSelectedField fields predicate.operand.fieldName
  | .and nodes | .or nodes => collectAllFilterFields fields nodes
  | .not node => collectFilterFields fields node
termination_by structural node => node

def collectAllFilterFields (fields : List String) : List FilterNode → List String
  | [] => fields
  | node :: nodes => collectAllFilterFields (collectFilterFields fields node) nodes
termination_by structural nodes => nodes

end

def filterFields (filter : Option FilterNode) : List String := (filter.map (collectFilterFields [])).getD []

/-- `query_select_fields`; the table's own key is not among the fields that are added. -/
def querySelectFields (requestedProjection : Option (List String)) (filter : Option FilterNode)
    (keySchema : DynamoDbKeySchemaConfig) (schema : PowdrrSchema) : Option (List String) :=
  requestedProjection.map fun fields =>
    (filterFields filter).foldl (appendSelectedFieldIfInSchema schema)
      (keySchema.fields.foldl appendSelectedField fields)

/-- One row more than the page, unless at most one can be found. -/
def queryFetchLimit (pageLimit : Nat) (sortIsExactEq hashOnlyKeySchema uniqueLookup : Bool) : Nat :=
  if uniqueLookup ∧ (sortIsExactEq ∨ hashOnlyKeySchema) then min pageLimit 1 else pageLimit + 1

def defaultQueryLimit : Nat := 100

/-- The page limit of a request: `clamp(1, 1000)`. -/
def pageLimitOf (limit : Option Nat) : Nat := min (max (limit.getD defaultQueryLimit) 1) 1000

/-! ### Key conditions -/

def nextScalar (value : Char) : Option Char :=
  if value.toNat = 0x10FFFF then none
  else if value.toNat = 0xD7FF then some (Char.ofNat 0xE000)
  else some (Char.ofNat (value.toNat + 1))

/-- The loop of `next_string_prefix_upper_bound`, with the characters from the last one on. -/
def nextUpperBoundLoop : List Char → Option (List Char)
  | [] => none
  | last :: before =>
    match nextScalar last with
    | some next => some (next :: before)
    | none => nextUpperBoundLoop before

def nextStringPrefixUpperBound (text : String) : Option String :=
  (nextUpperBoundLoop text.toList.reverse).map fun chars => String.ofList chars.reverse

theorem toNat_nextScalar {a next : Char} (h : nextScalar a = some next) :
    next.toNat = if a.toNat = 0xD7FF then 0xE000 else a.toNat + 1 := by
  have ha : a.toNat.isValidChar := a.valid
  unfold nextScalar at h
  split at h
  · cases h
  rename_i hne
  split at h
  · cases h
    rw [if_pos (by assumption)]
    rfl
  · rename_i hgap
    cases h
    have hvalid : (a.toNat + 1).isValidChar := by
      unfold Nat.isValidChar at ha ⊢
      omega
    rw [if_neg hgap, Char.ofNat, dif_pos hvalid]
    rfl

theorem lt_nextScalar {a next : Char} (h : nextScalar a = some next) (c : Char) : c < next ↔ c ≤ a := by
  have hc : c.toNat.isValidChar := c.valid
  unfold Nat.isValidChar at hc
  change c.toNat < next.toNat ↔ c.toNat ≤ a.toNat
  rw [toNat_nextScalar h]
  split <;> omega

theorem le_of_nextScalar {a : Char} (h : nextScalar a = none) (c : Char) : c ≤ a := by
  have hc : c.toNat.isValidChar := c.valid
  unfold Nat.isValidChar at hc
  have ha : a.toNat = 0x10FFFF := by
    unfold nextScalar at h
    split at h
    · assumption
    · split at h <;> cases h
  change c.toNat ≤ a.toNat
  omega

theorem prefix_iff_nextUpperBoundLoop (chars s : List Char) :
    chars.reverse <+: s ↔ ¬ s < chars.reverse ∧ ∀ upper ∈ nextUpperBoundLoop chars, s < upper.reverse := by
  induction chars with
  | nil => simp [nextUpperBoundLoop]
  | cons last before ih =>
    rw [List.reverse_cons, nextUpperBoundLoop]
    cases hnext : nextScalar last with
    | some next => simp [Text.prefix_iff_of_next (lt_nextScalar hnext)]
    | none =>
      rw [Text.prefix_iff_of_greatest (le_of_nextScalar hnext), ih]
      refine and_congr_right fun hnot => and_iff_right fun hlt => hnot (lt_of_lt_of_le hlt ?_)
      exact not_lt.mp (Text.prefix_not_lt (List.prefix_append _ _))

/-- **`begins_with` is a range.** -/
theorem prefix_iff_nextStringPrefixUpperBound (text start : String) : (start.toList <+: text.toList ↔
      start ≤ text ∧ ∀ upper ∈ nextStringPrefixUpperBound start, text < upper) ∧
    (nextStringPrefixUpperBound start = none → ∀ text, start ≤ text → start.toList <+: text.toList) := by
  have hrange : ∀ text : String, start.toList <+: text.toList ↔
      start ≤ text ∧ ∀ upper ∈ nextStringPrefixUpperBound start, text < upper := by
    intro text
    have hloop := prefix_iff_nextUpperBoundLoop start.toList.reverse text.toList
    rw [List.reverse_reverse] at hloop
    rw [hloop, not_lt, String.le_iff_toList_le]
    refine and_congr_right fun _ => ?_
    simp only [nextStringPrefixUpperBound, Option.mem_map, forall_exists_index, and_imp, forall_apply_eq_imp_iff₂,
      String.lt_iff_toList_lt, String.toList_ofList]
  refine ⟨hrange text, fun hnone text hle => (hrange text).mpr ⟨hle, ?_⟩⟩
  simp [hnone]

/-- What `parse_sort_condition` accepts after the condition on the partition key. -/
inductive SortCondition where
  | eq (value : Value)
  | lt (value : Value)
  | lte (value : Value)
  | gt (value : Value)
  | gte (value : Value)
  | between (start finish : Value)
  | beginsWith (start : String)
  deriving DecidableEq

/-- The predicate that `parse_sort_condition` returns. -/
def SortCondition.predicate (sortKey : String) : SortCondition → ReadPredicate
  | .eq value => { field := sortKey, eq := some value }
  | .lt value => { field := sortKey, lt := some value }
  | .lte value => { field := sortKey, lte := some value }
  | .gt value => { field := sortKey, gt := some value }
  | .gte value => { field := sortKey, gte := some value }
  | .between start finish => { field := sortKey, gte := some start, lte := some finish }
  | .beginsWith start =>
    { field := sortKey, gte := some (.string start)
      lt := (nextStringPrefixUpperBound start).map Value.string }

variable (keySchema : DynamoDbKeySchemaConfig)

/-- The sort filter of `parse_key_condition_expression`. -/
def parseSortFilter (condition : Option SortCondition) : DynamoResult (Option ReadPredicate) :=
  match keySchema.sortKey, condition with
  | _, none => .ok none
  | none, some _ => .validation "This table does not define a sort key"
  | some sortKey, some condition => .ok (some (condition.predicate sortKey))

/-! ### Continuation -/

/-- The fields of a continuation key with the names that errors give them: the key of the target, then
that of the table as far as it differs. -/
def labelledKeyFields (keySchema tableKeySchema : DynamoDbKeySchemaConfig) : List (String × String) :=
  ("partition", keySchema.partitionKey) :: keySchema.sortKey.toList.map (("sort", ·)) ++
    (if tableKeySchema.partitionKey ≠ keySchema.partitionKey then
      [("table partition", tableKeySchema.partitionKey)] else []) ++
    (if keySchema.sortKey ≠ tableKeySchema.sortKey then
      tableKeySchema.sortKey.toList.map (("table sort", ·)) else [])

def orderedKeyFields (keySchema tableKeySchema : DynamoDbKeySchemaConfig) : List String :=
  (labelledKeyFields keySchema tableKeySchema).map (·.2)

def appendKeyToMap (floatText : F64 → String) (row key : JsonMap) (field : String × String) : DynamoResult JsonMap :=
  if (key.lookup field.2).isSome then .ok key
  else do
    let value ← .ofOption (row.lookup field.2)
      (.internal ("Response item was missing " ++ field.1 ++ " key " ++ field.2))
    let attr ← jsonToDynamodbAttr floatText value
    .ok (key.insert field.2 attr)

/-- The key of a row, with the table's own key where an index is read. -/
def rowToKey (floatText : F64 → String) (row : JsonMap) (keySchema tableKeySchema : DynamoDbKeySchemaConfig) :
    DynamoResult JsonMap :=
  (labelledKeyFields keySchema tableKeySchema).foldlM (appendKeyToMap floatText row) ∅

/-- One round of the loop of `parse_exclusive_start_key_map`. -/
def parseStartKeyField (key parsed : JsonMap) (fieldName : String) : DynamoResult JsonMap := do
  let attr ← .ofOption (key.lookup fieldName)
    (.validation ("ExclusiveStartKey was missing key field " ++ fieldName))
  let value ← dynamodbAttrToJson attr
  .ok (parsed.insert fieldName value)

/-- A start key has the fields of both keys and no others. -/
def parseExclusiveStartKeyMap (key : JsonMap) (queryKeySchema tableKeySchema : DynamoDbKeySchemaConfig) :
    DynamoResult JsonMap := do
  let parsed ← (orderedKeyFields queryKeySchema tableKeySchema).foldlM (parseStartKeyField key) ∅
  if key.entries.length ≠ parsed.entries.length then
    .validation
      "ExclusiveStartKey contained attributes that are not part of the table or index key schema"
  else .ok parsed

def boundCompares (bound : Option Value) (candidate : Value) (test : Ordering → Bool) : DynamoResult Bool :=
  match bound with
  | none => .ok false
  | some existing => (compareScalars existing candidate).map test

/-- An inclusive bound above the candidate is made strict. -/
def tightenLowerBound (filter : ReadPredicate) (candidate : Value) : DynamoResult ReadPredicate := do
  if ← boundCompares filter.gt candidate (· ≠ .lt) then .ok filter
  else if ← boundCompares filter.gte candidate (· = .gt) then
    .ok { filter with gt := filter.gte, gte := none }
  else .ok { filter with gt := some candidate, gte := none }

/-- An inclusive bound below the candidate is made strict. -/
def tightenUpperBound (filter : ReadPredicate) (candidate : Value) : DynamoResult ReadPredicate := do
  if ← boundCompares filter.lt candidate (· ≠ .gt) then .ok filter
  else if ← boundCompares filter.lte candidate (· = .lt) then
    .ok { filter with lt := filter.lte, lte := none }
  else .ok { filter with lt := some candidate, lte := none }

/-- What `apply_exclusive_start_key` makes of the filter on the sort key. An equality with the start value
becomes a range that nothing satisfies. -/
def continueFilter (ascending : Bool) (startValue : Value) (filter : ReadPredicate) : DynamoResult ReadPredicate :=
  match filter.eq with
  | some value =>
    if value.jsonEq startValue then
      .ok { filter with eq := none, gt := some startValue, lt := some startValue }
    else .ok filter
  | none => if ascending then tightenLowerBound filter startValue else tightenUpperBound filter startValue

/-- The filter that is added where the sort key has none. -/
def startPredicate (sortKey : String) (ascending : Bool) (startValue : Value) : ReadPredicate :=
  if ascending then { field := sortKey, gt := some startValue } else { field := sortKey, lt := some startValue }

/-- The filters with the first one on the sort key changed, or with a new one at the end. -/
def continueFilters (sortKey : String) (ascending : Bool) (startValue : Value) :
    List ReadPredicate → DynamoResult (List ReadPredicate)
  | [] => .ok [startPredicate sortKey ascending startValue]
  | filter :: filters =>
    if filter.field = sortKey then
      (continueFilter ascending startValue filter).map fun filter => filter :: filters
    else (continueFilters sortKey ascending startValue filters).map fun filters => filter :: filters

/-- `apply_exclusive_start_key`. Without a sort key the start key is not looked at. -/
def applyExclusiveStartKey (filters : List ReadPredicate) (keySchema tableKeySchema : DynamoDbKeySchemaConfig)
    (ascending : Bool) (exclusiveStartKey : JsonMap) : DynamoResult (List ReadPredicate) :=
  match keySchema.sortKey with
  | none => .ok filters
  | some sortKey => do
    let parsedKey ← parseExclusiveStartKeyMap exclusiveStartKey keySchema tableKeySchema
    let partitionValue ← .ofOption (parsedKey.lookup keySchema.partitionKey)
      (.validation "ExclusiveStartKey was missing partition key")
    let partitionFilter ← .ofOption
      ((filters.find? fun filter => filter.field = keySchema.partitionKey).bind (·.eq))
      (.validation "Partition key filter was missing")
    if !partitionFilter.jsonEq partitionValue then
      .validation "ExclusiveStartKey partition key must match the query partition key"
    else
      let startValue ← .ofOption (parsedKey.lookup sortKey)
        (.validation "ExclusiveStartKey was missing sort key")
      continueFilters sortKey ascending startValue filters

/-! ### Plans -/

/-- The plan of `handle_get_item`, and of each key of `handle_batch_get_item`. -/
def getItemPlan (config : DynamoDbTableConfig) (key : JsonMap) (projection : Option (List String)) :
    DynamoResult ReadPlan :=
  (parseKeyMap key (primaryKeySchema config)).map fun parsed =>
    { select := projection, filters := keyToPredicates (primaryKeySchema config) parsed, limit := some 1 }

/-- A Query request with its expressions parsed; table name and capacity settings are left out. -/
structure QueryRequest where
  indexName : Option String := none
  partitionValue : Value
  sortCondition : Option SortCondition := none
  projection : Option (List String) := none
  select : Option String := none
  filter : Option FilterNode := none
  scanIndexForward : Option Bool := none
  limit : Option Nat := none
  exclusiveStartKey : Option JsonMap := none
  consistentRead : Option Bool := none

namespace QueryRequest

variable (request : QueryRequest)

def ascending : Bool := request.scanIndexForward.getD true

def pageLimit : Nat := pageLimitOf request.limit

end QueryRequest

/-- What `handle_query` has worked out when it asks the serving path. -/
structure PreparedQuery where
  target : QueryTarget
  selectMode : SelectMode
  sortIsExactEq : Bool
  plan : ReadPlan

/-- The filters of a query before a start key is applied. -/
def queryFilters (partitionValue : Value) (sortFilter : Option ReadPredicate) : List ReadPredicate :=
  { field := keySchema.partitionKey, eq := some partitionValue } :: sortFilter.toList

/-- The order of a query: by the sort key, unless the condition fixes it. -/
def queryOrder (sortIsExactEq ascending : Bool) : List ReadSort :=
  if sortIsExactEq then [] else keySchema.sortKey.toList.map fun sortKey => ⟨sortKey, !ascending⟩

def continuedFilters (config : DynamoDbTableConfig) (request : QueryRequest)
    (keySchema : DynamoDbKeySchemaConfig) (filters : List ReadPredicate) : DynamoResult (List ReadPredicate) :=
  match request.exclusiveStartKey with
  | none => .ok filters
  | some start => applyExclusiveStartKey filters keySchema (primaryKeySchema config) request.ascending start

/-- `handle_query` up to the serving request. -/
def prepareQuery (config : DynamoDbTableConfig) (schema : PowdrrSchema) (request : QueryRequest) :
    DynamoResult PreparedQuery := do
  let target ← queryTarget config request.indexName
  validateConsistentRead request.consistentRead target.indexKind
  let selectMode ← parseSelectMode request.select request.projection target.indexName
  let sortFilter ← parseSortFilter target.keySchema request.sortCondition
  let sortIsExactEq := sortFilter.any fun filter => filter.eq.isSome
  let filters ← continuedFilters config request target.keySchema
    (queryFilters target.keySchema request.partitionValue sortFilter)
  .ok
    { target, selectMode, sortIsExactEq
      plan :=
        { select := querySelectFields (queryRequestedProjection request.projection selectMode) request.filter
            target.keySchema schema
          filters
          orderBy := queryOrder target.keySchema sortIsExactEq request.ascending
          limit := some (queryFetchLimit request.pageLimit sortIsExactEq
            (decide (target.keySchema.sortKey = none)) target.uniqueLookup) } }

end PowdrrEngine
