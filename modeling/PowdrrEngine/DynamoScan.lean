import PowdrrEngine.DynamoContinue

/-! Scan. The files of a table are read in groups of one schema; each group answers an SQL query for the
first rows behind the start key, in the order of the key fields, and the answers are merged with a
comparison of the scanning code. -/

namespace PowdrrEngine

/-! ### The request -/

/-- A Scan request with its expressions parsed; table name and capacity settings are left out. -/
structure ScanRequest where
  indexName : Option String := none
  projection : Option (List String) := none
  select : Option String := none
  filter : Option FilterNode := none
  limit : Option Nat := none
  exclusiveStartKey : Option JsonMap := none
  consistentRead : Option Bool := none

/-- The projection, with the key fields and the fields of the filter that the table has. -/
def scanSelectFields (requestedProjection : Option (List String)) (filter : Option FilterNode)
    (orderFields : List String) (schema : PowdrrSchema) : Option (List String) :=
  requestedProjection.map fun fields =>
    (filterFields filter).foldl (appendSelectedFieldIfInSchema schema) (orderFields.foldl appendSelectedField fields)

/-! ### SQL -/

/-- The condition on the key fields that `scan_start_key_clause_inner` builds. -/
inductive ScanClause where
  | after (field : String) (value : Value)
  | afterOr (field : String) (value : Value) (rest : ScanClause)

/-- `scan_sql_literal`: the value, if it can be written as a literal. -/
def scanSqlLiteral : Value → DynamoResult Value
  | .array _ | .object _ => .validation "Only scalar literals are supported in DynamoDB read filters"
  | value => .ok value

/-- `scan_start_key_clause_inner`. -/
def scanStartKeyClause (key : JsonMap) : List String → DynamoResult ScanClause
  | [] => .validation "ExclusiveStartKey did not include any order fields"
  | field :: remaining => do
    let value ← .ofOption (key.lookup field)
      (.validation ("ExclusiveStartKey was missing key field " ++ field))
    let literal ← scanSqlLiteral value
    if remaining.isEmpty then .ok (.after field literal)
    else do
      let rest ← scanStartKeyClause key remaining
      .ok (.afterOr field literal rest)

/-- What `build_scan_sql` writes. -/
structure ScanSql where
  select : Option (List String)
  start : Option ScanClause
  orderFields : List String
  limit : Nat

def buildScanSql (projection : Option (List String)) (exclusiveStartKey : Option JsonMap)
    (orderFields : List String) (limit : Nat) : DynamoResult ScanSql :=
  match exclusiveStartKey with
  | none => .ok ⟨projection, none, orderFields, limit⟩
  | some key => (scanStartKeyClause key orderFields).map fun clause => ⟨projection, some clause, orderFields, limit⟩

/-- SQL compares a column of a row with a literal; with null there is no answer. -/
def columnCompare (row : ServingRow) (field : String) (value : Value) : Option Ordering :=
  (row.lookup field).bind fun column => sqlCompare column value

def ScanClause.holds (row : ServingRow) : ScanClause → Bool
  | .after field value => columnCompare row field value = some .gt
  | .afterOr field value rest =>
    columnCompare row field value = some .gt || (columnCompare row field value = some .eq && rest.holds row)

def selectColumns (select : Option (List String)) (row : ServingRow) : ServingRow :=
  match select with
  | none => row
  | some fields => fields.foldl (fun projected field =>
    match row.lookup field with
    | some value => projected.insert field value
    | none => projected) ∅

/-- A query can be run on a group of files if it names columns of the group's table, which has the schema of
the first file. -/
def NamesColumns (select : Option (List String)) (orderFields : List String) (group : List FileDescriptor) : Prop :=
  ∀ file ∈ group.head?, ∀ field ∈ select.getD [] ++ orderFields, field ∈ file.schema.names

instance (select : Option (List String)) (orderFields : List String) (group : List FileDescriptor) :
    Decidable (NamesColumns select orderFields group) :=
  inferInstanceAs (Decidable (∀ _ ∈ _, _))

/-- What a group of files may answer: the rows of which the clause is true, in an order that the key fields
allow, cut at the limit. -/
def ScanSql.IsResult (sql : ScanSql) (rows result : List ServingRow) : Prop :=
  ∃ selected : List ServingRow, selected.Perm (rows.filter fun row => sql.start.all (·.holds row)) ∧
    (selected.Pairwise fun left right => sqlRowOrder (sql.orderFields.map fun field => ⟨field, false⟩) left right ≠ .gt) ∧
    result = (selected.take sql.limit).map (selectColumns sql.select)

/-! ### Merging -/

variable (text : Value → String)

/-- A row without the field comes last. -/
def compareScanRowField : Option Value → Option Value → Ordering
  | some left, some right => (compareScalarValues left right).getD (compare (text left) (text right))
  | some _, none => .lt
  | none, some _ => .gt
  | none, none => .eq

def compareScanRows (text : Value → String) (left right : ServingRow) : List String → Ordering
  | [] => .eq
  | field :: fields =>
    (compareScanRowField text (left.lookup field) (right.lookup field)).then
      (compareScanRows text left right fields)

/-- One round of the loop of `execute_scan_query`: the rows of a group join those before it. -/
def mergeScanRows (orderFields : List String) (limit : Nat) (rows newRows : List ServingRow) : List ServingRow :=
  (TopK.sort (fun left right => compareScanRows text left right orderFields) (rows ++ newRows)).take limit

/-- `execute_scan_query`, with the engine that answers the query of a group of files. -/
def executeScanQuery (answer : List FileDescriptor → ScanSql → DynamoResult (List ServingRow)) (files : List FileDescriptor)
    (projection : Option (List String)) (exclusiveStartKey : Option JsonMap) (orderFields : List String)
    (limit : Nat) : DynamoResult (List ServingRow) := do
  let sql ← buildScanSql projection exclusiveStartKey orderFields limit
  (groupFilesBySchema files).foldlM (fun rows group =>
    (answer group sql).map (mergeScanRows text orderFields limit rows)) []

/-! ### The handler -/

/-- What `handle_scan` works out before it reads. -/
structure PreparedScan where
  target : QueryTarget
  selectMode : SelectMode
  orderFields : List String
  select : Option (List String)

/-- `handle_scan` up to the start key. -/
def prepareScan (config : DynamoDbTableConfig) (schema : PowdrrSchema) (request : ScanRequest) :
    DynamoResult PreparedScan := do
  let target ← queryTarget config request.indexName
  validateConsistentRead request.consistentRead target.indexKind
  let selectMode ← parseSelectMode request.select request.projection target.indexName
  let orderFields := orderedKeyFields target.keySchema (primaryKeySchema config)
  .ok
    { target, selectMode, orderFields
      select := scanSelectFields (queryRequestedProjection request.projection selectMode) request.filter orderFields
        schema }

def scanStartKey (config : DynamoDbTableConfig) (target : QueryTarget) (start : Option JsonMap) :
    DynamoResult (Option JsonMap) :=
  match start with
  | none => .ok none
  | some key => (parseExclusiveStartKeyMap key target.keySchema (primaryKeySchema config)).map some

/-- A page asks for one row more than it shows. -/
def handleScan (floatText : F64 → String) (text : Value → String)
    (answer : List FileDescriptor → ScanSql → DynamoResult (List ServingRow)) (config : DynamoDbTableConfig)
    (schema : PowdrrSchema) (files : List FileDescriptor) (request : ScanRequest) : DynamoResult ReadPage := do
  let prepared ← prepareScan config schema request
  let start ← scanStartKey config prepared.target request.exclusiveStartKey
  let rows ← executeScanQuery text answer files prepared.select start prepared.orderFields
    (pageLimitOf request.limit + 1)
  readPage floatText (fun row => rowToKey floatText row prepared.target.keySchema (primaryKeySchema config))
    (pageLimitOf request.limit) false request.filter prepared.selectMode
    (queryRequestedProjection request.projection prepared.selectMode) rows

end PowdrrEngine
