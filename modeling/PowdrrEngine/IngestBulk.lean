import PowdrrEngine.IngestBuffer
import PowdrrEngine.LibBatch

/-! Bulk payloads sent to one table. Every operation of a payload looks its document up in the committed
table, and what the operations add is committed at once. For each document id the payload is then a batch
of operations on the live records of the id, newest first, and the batches that do what their operations
do one by one are known. -/

namespace PowdrrEngine

/-! ### Tables -/

/-- A table as its speedboat segments hold it: the records, those with a greater sequence number first,
and the keys in the delete files. -/
structure SpeedboatTable where
  records : List Record := []
  deleted : List String := []
  lastSeqNo : Nat := 0

namespace SpeedboatTable

variable (t : SpeedboatTable)

def liveRecords : List Record := t.records.filter fun r => (r.text "_id_seq_no").all fun key => key ∉ t.deleted

/-- The rows that `LookupById` selects. -/
def lookupById (ids : List String) : List Record := t.liveRecords.filter fun r => (r.text "_id").any fun id => id ∈ ids

def lookupRecordIsNewer (candidate current : Record) : Bool :=
  let candidateSeqNo := (candidate.nat "_seq_no").getD 0
  let currentSeqNo := (current.nat "_seq_no").getD 0
  if candidateSeqNo ≠ currentSeqNo then currentSeqNo < candidateSeqNo
  else (current.nat "_version").getD 0 < (candidate.nat "_version").getD 0

/-- The first loop of `dedupe_lookup_docs`: the newest record of each id, and the records without one. -/
def newestById (values : List Record) : Dict String Record × List Record :=
  values.foldl (fun (byId, passthrough) value =>
    match value.text "_id" with
    | none => (byId, passthrough ++ [value])
    | some docId =>
      match byId.lookup docId with
      | some existing =>
        (if lookupRecordIsNewer value existing then byId.insert docId value else byId, passthrough)
      | none => (byId.insert docId value, passthrough)) (∅, [])

def dedupeLookupDocs (docIds : List String) (values : List Record) : List Record :=
  let (byId, passthrough) := newestById values
  let (deduped, byId) := docIds.foldl (fun (deduped, byId) docId =>
    (deduped ++ (byId.lookup docId).toList, byId.erase docId)) (([] : List Record), byId)
  deduped ++ Dict.values byId ++ passthrough

def getExistingDocs (docIds : List String) : List Record := dedupeLookupDocs docIds (t.lookupById docIds)

/-- `SpeedboatCommitBuilder::commit` where the segments are written and the metadata commit succeeds; none
where building the buffers stops the service. -/
def commit (b : SpeedboatCommitBuilder) : Option SpeedboatTable :=
  (b.buildBuffers t.lastSeqNo).map fun built =>
    ⟨built.lines ++ t.records, built.deletes ++ t.deleted, built.lastSeqNo⟩

end SpeedboatTable

/-! ### Commands -/

inductive IngestFailure where
  | refused (message : String)
  | stopped
  deriving DecidableEq

/-- What a command names: `_index` and `_id`. -/
structure CommandTarget where
  index : Option String := none
  id : Option String := none

structure UpdateBody where
  scriptedUpsert : Option Bool := none
  script : Option Value := none
  doc : Option Value := none
  upsert : Option Value := none
  docAsUpsert : Option Bool := none

/-- `IngestCommand` with its source line; a create or an index brings the id it draws if it names none. -/
inductive IngestCommand where
  | create (target : CommandTarget) (uuid : String) (doc : Value)
  | index (target : CommandTarget) (uuid : String) (doc : Value)
  | update (target : CommandTarget) (body : UpdateBody)
  | delete (target : CommandTarget)

section

variable (table : String) (t : SpeedboatTable) (b : SpeedboatCommitBuilder)

def checkIndex (target : CommandTarget) : Except IngestFailure Unit :=
  if target.index.all fun index => index = table then .ok ()
  else .error (.refused "Can not provide a index in create here")

/-- The document of an id; the service stops where it cannot be read back. -/
def existingDoc (docId : String) : Except IngestFailure (Option FullRecord) :=
  match t.getExistingDocs [docId] with
  | [] => .ok none
  | record :: _ =>
    match FullRecord.fromRecord record with
    | some existing => .ok (some existing)
    | none => .error .stopped

def insertRecord (docId : String) (version : Nat) (doc : Value) (status : Option Nat) :
    SpeedboatCommitBuilder := b.insert (.new docId version doc status)

def replaceRecord (existing : FullRecord) (doc : Value) (status : Option Nat) : SpeedboatCommitBuilder :=
  (b.update (.new existing.id (existing.version + 1) doc status)).delete
    ⟨existing.id, existing.seqNo, existing.version⟩

def applyUpdateRequest (docId : String) (existing : Option FullRecord) (request : UpdateBody)
    (createdStatus updatedStatus : Option Nat) : Except IngestFailure SpeedboatCommitBuilder :=
  if request.script.isSome ∨ request.scriptedUpsert = some true then
    .error (.refused "Scripted document updates are not implemented")
  else
    match existing with
    | some existing =>
      match request.doc with
      | none => .error (.refused "Document update without a doc payload is not implemented")
      | some patch =>
        match existing.source.mergeSource patch with
        | some merged => .ok (replaceRecord b existing merged updatedStatus)
        | none => .error .stopped
    | none =>
      if request.docAsUpsert.getD false then
        match request.doc with
        | none => .error (.refused "doc_as_upsert requires a doc payload")
        | some doc => .ok (insertRecord b docId 1 doc createdStatus)
      else
        match request.upsert with
        | some doc => .ok (insertRecord b docId 1 doc createdStatus)
        | none => .error
            (.refused "Document update requires an existing document or an upsert payload")

/-- One turn of the loop of `ingest`. -/
def ingestCommand : IngestCommand → Except IngestFailure SpeedboatCommitBuilder
  | .create target uuid doc => do
    checkIndex table target
    .ok (insertRecord b (target.id.getD uuid) 1 doc (some 201))
  | .index target uuid doc => do
    checkIndex table target
    let docId := target.id.getD uuid
    match ← existingDoc t docId with
    | none => .ok (insertRecord b docId 1 doc (some 201))
    | some existing => .ok (replaceRecord b existing doc (some 200))
  | .update target request => do
    checkIndex table target
    match target.id with
    | none => .error (.refused "Bulk update requires an _id")
    | some docId =>
      let existing ← existingDoc t docId
      applyUpdateRequest b docId existing request (some 201) (some 200)
  | .delete target => do
    checkIndex table target
    match target.id with
    | none => .error (.refused "Bulk delete requires an _id")
    | some docId =>
      match ← existingDoc t docId with
      | none => .ok b
      | some existing => .ok (b.delete ⟨existing.id, existing.seqNo, existing.version⟩)

/-- `ingest`, for the single-table message under the table's own name. -/
def ingest (commands : List IngestCommand) : Except IngestFailure SpeedboatCommitBuilder :=
  commands.foldlM (ingestCommand table t) {}

end

namespace SpeedboatTable

variable (table : String) (t : SpeedboatTable)

/-- The table after a payload was sent and committed. A payload that fails leaves the records as they were;
the numbers that were drawn for it are gone. -/
def commitPayload (commands : List IngestCommand) : SpeedboatTable :=
  match ingest table t commands with
  | .ok b =>
    (t.commit b).getD { t with
      lastSeqNo := t.lastSeqNo + b.insertRecords.length + b.updateRecords.length + b.deleteRecords.length }
  | .error _ => t

/-- The table after each operation was sent and committed on its own. -/
def commitSeparately (commands : List IngestCommand) : SpeedboatTable :=
  commands.foldl (fun t command => t.commitPayload table [command]) t

/-- The latest source of a document. -/
def visible (id : String) : Option Value := (t.getExistingDocs [id]).head?.bind Record.document

/-- **A payload behaves like its operations one by one**: the same documents are visible, and no id has
two live records. -/
def BulkAsOperations (commands : List IngestCommand) : Prop :=
  ∀ id, (t.commitPayload table commands).visible id = (t.commitSeparately table commands).visible id ∧
    ((t.commitPayload table commands).lookupById [id]).length ≤ 1

end SpeedboatTable

end PowdrrEngine
