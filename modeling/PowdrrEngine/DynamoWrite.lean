import PowdrrEngine.LibReadModifyWrite
import PowdrrEngine.DynamoStore

/-! The write requests of a DynamoDB table. Each handler first reads: it checks the request against the
schema and the rows of the latest checkpoint and plans the rows to write. It then publishes what it
planned as a new checkpoint, whatever the latest checkpoint is by then. The handlers take the schema from the
active checkpoint, which is an older one while a cutover is held back; here it is that of the latest. -/

namespace PowdrrEngine

open ReadModifyWrite Run

/-! ### Requests -/

structure PutItemRequest where
  item : JsonMap
  returnValues : Option String := none
  conditionExpression : Option FilterNode := none

structure UpdateItemRequest where
  key : JsonMap
  updateExpression : List UpdateAction
  returnValues : Option String := none
  conditionExpression : Option FilterNode := none

structure DeleteItemRequest where
  key : JsonMap
  returnValues : Option String := none
  conditionExpression : Option FilterNode := none

structure BatchWriteRequest where
  putRequest : Option JsonMap := none
  deleteRequest : Option JsonMap := none

inductive BatchWriteOperation where
  | put (item key : JsonMap)
  | delete (key : JsonMap)

/-- The requests that write. Expressions are given parsed, and the entries of a batch are those for the
table. -/
inductive WriteRequest where
  | putItem (request : PutItemRequest)
  | updateItem (request : UpdateItemRequest)
  | deleteItem (request : DeleteItemRequest)
  | batchWriteItem (requests : List BatchWriteRequest)

def WriteRequest.itemKey (keySchema : DynamoDbKeySchemaConfig) : WriteRequest → Option (DynamoResult JsonMap)
  | .putItem request => some (parseItemKeyMap request.item keySchema)
  | .updateItem request => some (parseKeyMap request.key keySchema)
  | .deleteItem request => some (parseKeyMap request.key keySchema)
  | .batchWriteItem _ => none

structure WriteCall where
  request : WriteRequest
  checkpointId : String

/-- The attributes of a single write; a batch reports no unprocessed items. -/
inductive WriteResponse where
  | attributes (attributes : Option JsonMap)
  | noUnprocessedItems
  deriving DecidableEq

/-- What a handler has in hand when it publishes: the checkpoint it has read, the rows to write, and the
answer it gives afterwards. -/
structure WritePlan where
  checkpoint : TableMetadataCheckpoint
  rows : List JsonMap
  checkpointId : String
  response : DynamoResult WriteResponse

/-- A handler after its first step: it has answered, or it goes on to publish. -/
abbrev Loaded := DynamoResult WriteResponse ⊕ WritePlan

/-! ### Batches -/

def parseBatchWriteRequest (schema : PowdrrSchema) (keySchema : DynamoDbKeySchemaConfig) :
    BatchWriteRequest → DynamoResult BatchWriteOperation
  | ⟨some _, some _⟩ =>
    .validation "BatchWriteItem request entries cannot include both PutRequest and DeleteRequest"
  | ⟨none, none⟩ =>
    .validation "BatchWriteItem request entries must include PutRequest or DeleteRequest"
  | ⟨some putRequest, none⟩ => do
    let item ← dynamodbItemToJsonRow putRequest
    validatePutItemFields schema item
    let key ← parseItemKeyMap putRequest keySchema
    .ok (.put item key)
  | ⟨none, some deleteRequest⟩ => do
    let key ← parseKeyMap deleteRequest keySchema
    .ok (.delete key)

def BatchWriteOperation.key : BatchWriteOperation → JsonMap
  | .put _ key => key
  | .delete key => key

/-- The loop over the entries for a table. The keys so far are kept as texts. -/
def parseBatchOperations (rt : DynamoRuntime) (tableName : String) (schema : PowdrrSchema)
    (keySchema : DynamoDbKeySchemaConfig) :
    (duplicateKeys : List String) → List BatchWriteRequest → DynamoResult (List BatchWriteOperation × List String)
  | duplicateKeys, [] => .ok ([], duplicateKeys)
  | duplicateKeys, request :: requests => do
    let operation ← parseBatchWriteRequest schema keySchema request
    let duplicateKey := tableName ++ ":" ++ rt.jsonText (canonicalKeyValue keySchema operation.key)
    if duplicateKey ∈ duplicateKeys then
      .validation
        "BatchWriteItem cannot perform multiple operations on the same item in one request"
    else do
      let (operations, duplicateKeys) ←
        parseBatchOperations rt tableName schema keySchema (duplicateKey :: duplicateKeys) requests
      .ok (operation :: operations, duplicateKeys)

/-- One operation of a batch on the rows; the flag says whether anything has changed. -/
def applyBatchOperation (keySchema : DynamoDbKeySchemaConfig) (state : List JsonMap × Bool) :
    BatchWriteOperation → List JsonMap × Bool
  | .put item key => ((splitRowsByKey state.1 keySchema key).2 ++ [item], true)
  | .delete key =>
    ((splitRowsByKey state.1 keySchema key).2, state.2 || (splitRowsByKey state.1 keySchema key).1.isSome)

/-! ### The first step of the handlers -/

namespace DynamoDbTable

variable (rt : DynamoRuntime) (table : DynamoDbTable)

/-- The part that the handlers of single items share: read the rows, look for the item and check the
condition on it. -/
def withItem (key : JsonMap) (condition : Option FilterNode)
    (edit : Option JsonMap → List JsonMap → DynamoResult Loaded) : DynamoResult Loaded := do
  let rows ← table.loadMutableTableRows
  let split := splitRowsByKey rows table.keySchema key
  if conditionMatches split.1 condition then edit split.1 split.2
  else .conditionalCheckFailed "The conditional request failed"

variable (checkpointId : String)

/-- `handle_put_item` up to the rows it is to write. The schema that the item is checked against is that of the
latest checkpoint, as in all handlers below. -/
def loadPutItem (request : PutItemRequest) : DynamoResult Loaded := do
  let schema ← schemaFromCheckpoint table.checkpoint
  let item ← dynamodbItemToJsonRow request.item
  validatePutItemFields schema item
  let itemKey ← parseItemKeyMap request.item table.keySchema
  let returnValues ← parseWriteReturnValues request.returnValues "PutItem"
  table.withItem itemKey request.conditionExpression fun existingItem retainedRows =>
    .ok (.inr ⟨table.checkpoint, retainedRows ++ [item], checkpointId,
      (oldAttributes rt.floatText existingItem returnValues).map .attributes⟩)

/-- `handle_update_item` up to the rows it is to write. -/
def loadUpdateItem (request : UpdateItemRequest) : DynamoResult Loaded := do
  let schema ← schemaFromCheckpoint table.checkpoint
  let key ← parseKeyMap request.key table.keySchema
  let returnValues ← parseWriteReturnValues request.returnValues "UpdateItem"
  checkUpdateActions schema table.keySchema [] request.updateExpression
  table.withItem key request.conditionExpression fun existingItem retainedRows => do
    let updatedItem ← applyUpdateExpression existingItem table.keySchema key request.updateExpression
    .ok (.inr ⟨table.checkpoint, retainedRows ++ [updatedItem], checkpointId,
      (updateReturnAttributes rt.floatText existingItem updatedItem
        (request.updateExpression.map UpdateAction.field) returnValues).map .attributes⟩)

/-- `handle_delete_item`: nothing is published where there is no such item. -/
def loadDeleteItem (request : DeleteItemRequest) : DynamoResult Loaded := do
  let _ ← schemaFromCheckpoint table.checkpoint
  let key ← parseKeyMap request.key table.keySchema
  let returnValues ← parseWriteReturnValues request.returnValues "DeleteItem"
  table.withItem key request.conditionExpression fun existingItem retainedRows =>
    let response := (oldAttributes rt.floatText existingItem returnValues).map .attributes
    if existingItem.isSome then .ok (.inr ⟨table.checkpoint, retainedRows, checkpointId, response⟩)
    else .ok (.inl response)

/-- `handle_batch_write_item` on the entries for one table. -/
def loadBatchWriteItem (requests : List BatchWriteRequest) : DynamoResult Loaded :=
  if 25 < requests.length then .validation "BatchWriteItem supports at most 25 write requests"
  else if requests = [] then
    .validation ("BatchWriteItem requires at least one write request for table " ++ table.checkpoint.tableName)
  else do
    let schema ← schemaFromCheckpoint table.checkpoint
    let (operations, _) ←
      parseBatchOperations rt table.checkpoint.tableName schema table.keySchema [] requests
    let rows ← table.loadMutableTableRows
    let edited := operations.foldl (applyBatchOperation table.keySchema) (rows, false)
    if edited.2 then .ok (.inr ⟨table.checkpoint, edited.1, checkpointId, .ok .noUnprocessedItems⟩)
    else .ok (.inl (.ok .noUnprocessedItems))

/-- The first step of a request. -/
def loadWrite (call : WriteCall) : DynamoResult Loaded :=
  match call.request with
  | .putItem request => table.loadPutItem rt call.checkpointId request
  | .updateItem request => table.loadUpdateItem rt call.checkpointId request
  | .deleteItem request => table.loadDeleteItem rt call.checkpointId request
  | .batchWriteItem requests => table.loadBatchWriteItem rt call.checkpointId requests

/-- The second step: publish what was planned, then answer. -/
def publishWrite (plan : WritePlan) : DynamoResult WriteResponse × Option DynamoDbTable :=
  match table.publishMutatedCheckpoint rt plan.checkpoint plan.rows plan.checkpointId with
  | .ok table' => (plan.response, some table')
  | .error failure => (.error failure, none)

/-- The rows that a request would publish; none where it fails before or has nothing to publish. -/
def plannedRows (call : WriteCall) : Option (List JsonMap) :=
  match table.loadWrite rt call with
  | .ok (.inr plan) => some plan.rows
  | _ => none

end DynamoDbTable

/-- The write handlers as requests that read in one step and write in another. -/
def writeProtocol (rt : DynamoRuntime) : Protocol DynamoDbTable WriteCall WritePlan (DynamoResult WriteResponse) where
  load table call :=
    match table.loadWrite rt call with
    | .ok loaded => loaded
    | .error failure => .inl (.error failure)
  publish table plan := table.publishWrite rt plan

/-- A request on its own. -/
def DynamoDbTable.write (rt : DynamoRuntime) (table : DynamoDbTable) (call : WriteCall) :
    DynamoResult WriteResponse × DynamoDbTable := (writeProtocol rt).perform table call

/-- Answered with success. -/
def succeeded : DynamoResult WriteResponse → Bool
  | .ok _ => true
  | .error _ => false

/-! ### What a successful write does -/

/-- `edited` are the rows that a request plans to write over the rows of the table, none where it has
nothing to publish. A request on a single item has found its condition true. -/
inductive Edits (rt : DynamoRuntime) (table : DynamoDbTable) (rows : List JsonMap) :
    WriteRequest → (edited : Option (List JsonMap)) → Prop
  | put {request : PutItemRequest} {item key : JsonMap}
      (hitem : dynamodbItemToJsonRow request.item = .ok item)
      (hkey : parseItemKeyMap request.item table.keySchema = .ok key)
      (hcondition : conditionMatches (splitRowsByKey rows table.keySchema key).1 request.conditionExpression = true) :
      Edits rt table rows (.putItem request) (some ((splitRowsByKey rows table.keySchema key).2 ++ [item]))
  | update {request : UpdateItemRequest} {schema : PowdrrSchema} {key item : JsonMap}
      (hkey : parseKeyMap request.key table.keySchema = .ok key)
      (hactions : checkUpdateActions schema table.keySchema [] request.updateExpression = .ok ())
      (hcondition : conditionMatches (splitRowsByKey rows table.keySchema key).1 request.conditionExpression = true)
      (hitem : applyUpdateExpression (splitRowsByKey rows table.keySchema key).1 table.keySchema key
        request.updateExpression = .ok item) :
      Edits rt table rows (.updateItem request) (some ((splitRowsByKey rows table.keySchema key).2 ++ [item]))
  | delete {request : DeleteItemRequest} {key : JsonMap}
      (hkey : parseKeyMap request.key table.keySchema = .ok key)
      (hcondition : conditionMatches (splitRowsByKey rows table.keySchema key).1 request.conditionExpression = true)
      (hfound : (splitRowsByKey rows table.keySchema key).1.isSome = true) :
      Edits rt table rows (.deleteItem request) (some (splitRowsByKey rows table.keySchema key).2)
  | absent {request : DeleteItemRequest} {key : JsonMap}
      (hkey : parseKeyMap request.key table.keySchema = .ok key)
      (hcondition : conditionMatches (splitRowsByKey rows table.keySchema key).1 request.conditionExpression = true)
      (hfound : (splitRowsByKey rows table.keySchema key).1.isSome = false) :
      Edits rt table rows (.deleteItem request) none
  | batch {requests : List BatchWriteRequest} {schema : PowdrrSchema} {operations : List BatchWriteOperation}
      {duplicateKeys : List String}
      (hoperations : parseBatchOperations rt table.checkpoint.tableName schema table.keySchema [] requests =
        .ok (operations, duplicateKeys))
      (hchanged : (operations.foldl (applyBatchOperation table.keySchema) (rows, false)).2 = true) :
      Edits rt table rows (.batchWriteItem requests)
        (some (operations.foldl (applyBatchOperation table.keySchema) (rows, false)).1)
  | batchUnchanged {requests : List BatchWriteRequest} {schema : PowdrrSchema}
      {operations : List BatchWriteOperation} {duplicateKeys : List String}
      (hoperations : parseBatchOperations rt table.checkpoint.tableName schema table.keySchema [] requests =
        .ok (operations, duplicateKeys))
      (hchanged : (operations.foldl (applyBatchOperation table.keySchema) (rows, false)).2 = false) :
      Edits rt table rows (.batchWriteItem requests) none

/-- How a handler goes on with the rows it has planned. -/
def WriteCall.loaded (call : WriteCall) (table : DynamoDbTable) (response : DynamoResult WriteResponse) :
    Option (List JsonMap) → Loaded
  | some rows => .inr ⟨table.checkpoint, rows, call.checkpointId, response⟩
  | none => .inl response

section

variable {rt : DynamoRuntime} {table : DynamoDbTable} {call : WriteCall} {loaded : Loaded}

theorem withItem_eq_ok {key : JsonMap} {condition : Option FilterNode}
    {edit : Option JsonMap → List JsonMap → DynamoResult Loaded}
    (h : table.withItem key condition edit = .ok loaded) :
    ∃ rows, table.loadMutableTableRows = .ok rows ∧
      conditionMatches (splitRowsByKey rows table.keySchema key).1 condition = true ∧
      edit (splitRowsByKey rows table.keySchema key).1 (splitRowsByKey rows table.keySchema key).2 = .ok loaded := by
  obtain ⟨rows, hrows, h⟩ := exists_ok_of_bind h
  dsimp only at h
  split at h
  · rename_i hcondition
    exact ⟨rows, hrows, hcondition, h⟩
  · cases h

/-- What a handler leaves when it succeeds: an edit of the rows of the table. -/
def Plans (rt : DynamoRuntime) (table : DynamoDbTable) (call : WriteCall) (request : WriteRequest)
    (loaded : Loaded) : Prop :=
  ∃ rows edited response, table.loadMutableTableRows = .ok rows ∧ Edits rt table rows request edited ∧
    loaded = call.loaded table response edited

theorem loadPutItem_cases {request : PutItemRequest} (h : table.loadPutItem rt call.checkpointId request = .ok loaded) :
    Plans rt table call (.putItem request) loaded := by
  obtain ⟨schema, -, h⟩ := exists_ok_of_bind h
  obtain ⟨item, hitem, h⟩ := exists_ok_of_bind h
  obtain ⟨_, -, h⟩ := exists_ok_of_bind h
  obtain ⟨key, hkey, h⟩ := exists_ok_of_bind h
  obtain ⟨returnValues, -, h⟩ := exists_ok_of_bind h
  obtain ⟨rows, hrows, hcondition, h⟩ := withItem_eq_ok h
  cases h
  exact ⟨rows, _, _, hrows, .put hitem hkey hcondition, rfl⟩

theorem loadUpdateItem_cases {request : UpdateItemRequest}
    (h : table.loadUpdateItem rt call.checkpointId request = .ok loaded) :
    Plans rt table call (.updateItem request) loaded := by
  obtain ⟨schema, -, h⟩ := exists_ok_of_bind h
  obtain ⟨key, hkey, h⟩ := exists_ok_of_bind h
  obtain ⟨returnValues, -, h⟩ := exists_ok_of_bind h
  obtain ⟨_, hactions, h⟩ := exists_ok_of_bind h
  obtain ⟨rows, hrows, hcondition, h⟩ := withItem_eq_ok h
  obtain ⟨item, hitem, h⟩ := exists_ok_of_bind h
  cases h
  exact ⟨rows, _, _, hrows, .update hkey hactions hcondition hitem, rfl⟩

theorem loadDeleteItem_cases {request : DeleteItemRequest}
    (h : table.loadDeleteItem rt call.checkpointId request = .ok loaded) :
    Plans rt table call (.deleteItem request) loaded := by
  obtain ⟨schema, -, h⟩ := exists_ok_of_bind h
  obtain ⟨key, hkey, h⟩ := exists_ok_of_bind h
  obtain ⟨returnValues, -, h⟩ := exists_ok_of_bind h
  obtain ⟨rows, hrows, hcondition, h⟩ := withItem_eq_ok h
  split at h
  · rename_i hfound
    cases h
    exact ⟨rows, _, _, hrows, .delete hkey hcondition hfound, rfl⟩
  · rename_i hfound
    cases h
    exact ⟨rows, _, _, hrows, .absent hkey hcondition (Bool.eq_false_iff.mpr hfound), rfl⟩

theorem loadBatchWriteItem_cases {requests : List BatchWriteRequest}
    (h : table.loadBatchWriteItem rt call.checkpointId requests = .ok loaded) :
    Plans rt table call (.batchWriteItem requests) loaded := by
  unfold DynamoDbTable.loadBatchWriteItem at h
  split at h
  · cases h
  split at h
  · cases h
  obtain ⟨schema, -, h⟩ := exists_ok_of_bind h
  obtain ⟨⟨operations, duplicateKeys⟩, hoperations, h⟩ := exists_ok_of_bind h
  obtain ⟨rows, hrows, h⟩ := exists_ok_of_bind h
  dsimp only at h
  split at h
  · rename_i hchanged
    cases h
    exact ⟨rows, _, _, hrows, .batch hoperations hchanged, rfl⟩
  · rename_i hchanged
    cases h
    exact ⟨rows, _, _, hrows, .batchUnchanged hoperations (Bool.eq_false_iff.mpr hchanged), rfl⟩

theorem loadWrite_cases (h : table.loadWrite rt call = .ok loaded) : Plans rt table call call.request loaded := by
  obtain ⟨request, checkpointId⟩ := call
  cases request with
  | putItem request => exact loadPutItem_cases h
  | updateItem request => exact loadUpdateItem_cases h
  | deleteItem request => exact loadDeleteItem_cases h
  | batchWriteItem requests => exact loadBatchWriteItem_cases h

theorem publish_cases (rt : DynamoRuntime) (table : DynamoDbTable) (plan : WritePlan) :
    (∃ table', table.publishMutatedCheckpoint rt plan.checkpoint plan.rows plan.checkpointId = .ok table' ∧
      (writeProtocol rt).publish table plan = (plan.response, some table')) ∨
    ∃ failure, (writeProtocol rt).publish table plan = (.error failure, none) := by
  cases hpublish : table.publishMutatedCheckpoint rt plan.checkpoint plan.rows plan.checkpointId with
  | ok table' => exact Or.inl ⟨table', rfl, by simp [writeProtocol, DynamoDbTable.publishWrite, hpublish]⟩
  | error failure => exact Or.inr ⟨failure, by simp [writeProtocol, DynamoDbTable.publishWrite, hpublish]⟩

/-- A write edits the rows of the table and publishes what the edit leaves, or there is nothing to publish
and the table stays as it is. -/
def TakesEffect (rt : DynamoRuntime) (table : DynamoDbTable) (call : WriteCall) : Prop :=
  ∃ rows edited, table.loadMutableTableRows = .ok rows ∧ Edits rt table rows call.request edited ∧
    table.plannedRows rt call = edited ∧
    ((∃ rows', edited = some rows' ∧ table.publishMutatedCheckpoint rt table.checkpoint rows' call.checkpointId =
          .ok (table.write rt call).2) ∨
      edited = none ∧ (table.write rt call).2 = table)

/-- **A write** takes effect, or it fails and leaves the table as it is. -/
theorem write_effect (rt : DynamoRuntime) (table : DynamoDbTable) (call : WriteCall) :
    (∃ failure, table.write rt call = (.error failure, table)) ∨ TakesEffect rt table call := by
  rw [TakesEffect, DynamoDbTable.plannedRows, DynamoDbTable.write, Protocol.perform]
  cases hloaded : table.loadWrite rt call with
  | error failure => exact Or.inl ⟨failure, by simp [writeProtocol, hloaded]⟩
  | ok loaded =>
    obtain ⟨rows, edited, response, hrows, hedits, rfl⟩ := loadWrite_cases hloaded
    have hload : (writeProtocol rt).load table call = call.loaded table response edited := by
      simp [writeProtocol, hloaded]
    rw [hload]
    cases edited with
    | none => exact Or.inr ⟨rows, none, hrows, hedits, rfl, Or.inr ⟨rfl, rfl⟩⟩
    | some rows' =>
      rcases publish_cases rt table ⟨table.checkpoint, rows', call.checkpointId, response⟩ with
        ⟨table', hpublish, hout⟩ | ⟨failure, hout⟩
      · refine Or.inr ⟨rows, _, hrows, hedits, rfl, Or.inl ⟨rows', rfl, ?_⟩⟩
        simp only [WriteCall.loaded, hout, Option.getD_some]
        exact hpublish
      · exact Or.inl ⟨failure, by simp [WriteCall.loaded, hout]⟩

theorem write_cases (h : succeeded (table.write rt call).1 = true) : TakesEffect rt table call := by
  refine (write_effect rt table call).resolve_left ?_
  rintro ⟨failure, hfails⟩
  rw [hfails] at h
  cases h

theorem write_invariant {P : DynamoDbTable → Prop} (h : P table)
    (hpublish : ∀ rows rows' table', table.loadMutableTableRows = .ok rows →
      Edits rt table rows call.request (some rows') →
      table.publishMutatedCheckpoint rt table.checkpoint rows' call.checkpointId = .ok table' → P table') :
    P (table.write rt call).2 := by
  rcases write_effect rt table call with
    ⟨failure, hfails⟩ | ⟨rows, _, hrows, hedits, -, ⟨rows', rfl, hwrite⟩ | ⟨-, hsame⟩⟩
  · rwa [hfails]
  · exact hpublish rows rows' _ hrows hedits hwrite
  · rwa [hsame]

end

end PowdrrEngine
