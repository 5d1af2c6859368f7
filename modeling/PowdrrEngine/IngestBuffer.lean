import PowdrrEngine.ContractJson
import PowdrrEngine.ContractSchema
import PowdrrEngine.LibDict
import PowdrrEngine.LibText

/-! Documents on their way into a speedboat segment. A builder collects inserted and updated records and
the deletes that go with them; building its buffers draws sequence numbers and turns every record into
the columns that are stored. A record keeps its columns once it has them. The schemas of all records are
merged, which stops the service where two records have a column in different types, and a record without
a column of the merged schema gets a null there. -/

namespace PowdrrEngine

/-! ### Documents -/

namespace Value

mutual

/-- The columns of the members of an object. Arrays and nulls have none. -/
def denormalizeMembers (path : String) : List (String × Value) → List (String × Value)
  | [] => []
  | member :: members => denormalizeMember path member ++ denormalizeMembers path members

def denormalizeMember (path : String) : String × Value → List (String × Value)
  | (key, .object members) => denormalizeMembers (path ++ key ++ "_") members
  | (_, .array _) | (_, .null) => []
  | (key, .bool b) => [(path ++ key, .bool b)]
  | (key, .number n) => [(path ++ key, .number n)]
  | (key, .string s) => [(path ++ key, .string s)]

end

/-- `create_denormalized_value`; a document that is no object stops the service. -/
def createDenormalizedValue : Value → Option (List (String × Value))
  | .object members => some (denormalizeMembers "" members)
  | _ => none

/-- `Map::insert`. -/
def insertMember (members : List (String × Value)) (key : String) (value : Value) : List (String × Value) :=
  if members.any fun m => m.1 = key then
    members.map fun m => if m.1 = key then (key, value) else m
  else members ++ [(key, value)]

mutual

def mergeValue (existing : Value) : Value → Value
  | .object updates =>
    match existing with
    | .object members => .object (mergeMembers members updates)
    | _ => .object updates
  | value => value

/-- The loop of `merge_source`. -/
def mergeMembers (members : List (String × Value)) : List (String × Value) → List (String × Value)
  | [] => members
  | update :: updates => mergeMembers (mergeMember members update) updates

def mergeMember (members : List (String × Value)) : String × Value → List (String × Value)
  | (key, value) =>
    match (Value.object members).get key with
    | some existing => insertMember members key (mergeValue existing value)
    | none => insertMember members key value

end

/-- `merge_source`; both documents have to be objects. -/
def mergeSource : Value → Value → Option Value
  | .object members, .object updates => some (.object (mergeMembers members updates))
  | _, _ => none

end Value

/-! ### Records -/

/-- A stored cell. The text in `_source` stands as the document it is the text of. -/
inductive Column where
  | cell (value : Value)
  | sourceText (document : Value)
  deriving DecidableEq

/-- The type that Arrow infers for a cell, as `extract_powdrr_schema` returns it. Lists and objects are no
cells. -/
def Column.dataType : Column → PowdrrDataType
  | .sourceText _ | .cell (.string _) => .string
  | .cell (.bool _) => .boolean
  | .cell (.number (.posInt n)) => if n < 2 ^ 63 then .integer else .float
  | .cell (.number (.negInt _)) => .integer
  | .cell (.number (.float _)) => .float
  | .cell .null | .cell (.array _) | .cell (.object _) => .null

abbrev Record := Dict String Column

namespace Record

def extractPowdrrSchema (r : Record) : PowdrrSchema := ⟨r.entries.map fun e => ⟨e.1, e.2.dataType⟩⟩

def extractPowdrrSchemaOption : Option Record → PowdrrSchema
  | none => .minimal
  | some r => r.extractPowdrrSchema

/-- `coerce_value`: a missing column becomes null. No column is of an object type, so nothing is coerced
inside one. -/
def coerceValue (schema : PowdrrSchema) (r : Record) : Record :=
  schema.fields.foldl (fun r field =>
    match r.lookup field.name with
    | some _ => r
    | none => r.insert field.name (.cell .null)) r

def text (r : Record) (name : String) : Option String :=
  match r.lookup name with
  | some (.cell (.string s)) => some s
  | _ => none

/-- `as_u64` of a column. -/
def nat (r : Record) (name : String) : Option Nat :=
  match r.lookup name with
  | some (.cell (.number (.posInt n))) => some n
  | _ => none

def document (r : Record) : Option Value :=
  match r.lookup "_source" with
  | some (.sourceText document) => some document
  | _ => none

end Record

/-- The key by which a delete names a record, `"{id}_{seq_no}"`. -/
def idSeqNo (id : String) (seqNo : Nat) : String := id ++ "_" ++ toString seqNo

/-- A record on its way in; it has its columns once it was written. -/
structure RecordInput where
  id : String
  version : Nat
  source : Value
  status : Option Nat
  existingNormalized : Option Record

namespace RecordInput

def new (id : String) (version : Nat) (source : Value) (status : Option Nat) : RecordInput :=
  ⟨id, version, source, status, none⟩

/-- The columns of a record under a sequence number; a column of the document with one of the first five
names takes its place. -/
def normalized (r : RecordInput) (seqNo : Nat) : Option Record :=
  r.source.createDenormalizedValue.map fun columns =>
    Dict.insertAll ∅ ([("_id", .cell (.string r.id)), ("_seq_no", .cell (.int seqNo)),
      ("_id_seq_no", .cell (.string (idSeqNo r.id seqNo))), ("_version", .cell (.int r.version)),
      ("_source", .sourceText r.source)] ++ columns.map fun c => (c.1, .cell c.2))

/-- A record that has its columns keeps them. -/
def ensureNormalizedValue (r : RecordInput) (seqNo : Nat) : Option RecordInput :=
  match r.existingNormalized with
  | some _ => some r
  | none => (r.normalized seqNo).map fun columns => { r with existingNormalized := some columns }

/-- `coerce_value_option` on the columns of a record. -/
def coerce (schema : PowdrrSchema) (r : RecordInput) : RecordInput :=
  { r with existingNormalized := r.existingNormalized.map (·.coerceValue schema) }

/-- The records brought to the merge of their schemas; `merge_all` is asked only if there are any. -/
def coerceAll (records : List RecordInput) : Option (List RecordInput) :=
  if records.isEmpty then some []
  else (PowdrrSchema.mergeAll (records.map fun r => Record.extractPowdrrSchemaOption r.existingNormalized)).map
    fun merged => records.map (coerce merged)

end RecordInput

/-- `FullRecord`: a stored record read back. -/
structure FullRecord where
  id : String
  version : Nat
  source : Value
  seqNo : Nat
  deriving DecidableEq

/-- `FullRecord::from_record`; a column that is missing or of another type stops the service. -/
def FullRecord.fromRecord (r : Record) : Option FullRecord := do
  let seqNo ← r.nat "_seq_no"
  let id ← r.text "_id"
  let version ← r.nat "_version"
  let source ← r.document
  some ⟨id, version, source, seqNo⟩

structure RecordDelete where
  id : String
  seqNo : Nat
  version : Nat
  deriving DecidableEq

/-- `RecordDelete::as_value`: the delete's only column. -/
def RecordDelete.asValue (d : RecordDelete) : String := idSeqNo d.id d.seqNo

/-! ### Builders -/

/-- `SpeedboatCommitBuilder` of a table. -/
structure SpeedboatCommitBuilder where
  insertRecords : List RecordInput := []
  updateRecords : List RecordInput := []
  deleteRecords : List RecordDelete := []

namespace SpeedboatCommitBuilder

variable (b : SpeedboatCommitBuilder)

def insert (r : RecordInput) : SpeedboatCommitBuilder := { b with insertRecords := b.insertRecords ++ [r] }

def update (r : RecordInput) : SpeedboatCommitBuilder := { b with updateRecords := b.updateRecords ++ [r] }

def delete (d : RecordDelete) : SpeedboatCommitBuilder := { b with deleteRecords := b.deleteRecords ++ [d] }

def extend (b other : SpeedboatCommitBuilder) : SpeedboatCommitBuilder where
  insertRecords := b.insertRecords ++ other.insertRecords
  updateRecords := b.updateRecords ++ other.updateRecords
  deleteRecords := b.deleteRecords ++ other.deleteRecords

/-- The records of a builder in the order in which they are written. -/
def records : List RecordInput := b.insertRecords ++ b.updateRecords

/-- `report_table_changes`: one number for each change, the greatest first, and the last one drawn. -/
def reportTableChanges (lastSeqNo changes : Nat) : List Nat × Nat :=
  ((List.range changes).map (lastSeqNo + changes - ·), lastSeqNo + changes)

/-- What `build_buffers` leaves: the lines of the two buffers, the builder with its records normalized, and
the counter. -/
structure Built where
  lines : List Record
  deletes : List String
  builder : SpeedboatCommitBuilder
  lastSeqNo : Nat

/-- `build_buffers`; none where the service stops. -/
def buildBuffers (lastSeqNo : Nat) : Option Built := do
  let changes := b.insertRecords.length + b.updateRecords.length + b.deleteRecords.length
  let (seqNos, lastSeqNo) := reportTableChanges lastSeqNo changes
  let records ← (b.records.zip seqNos).mapM fun (r, seqNo) => r.ensureNormalizedValue seqNo
  let records ← RecordInput.coerceAll records
  let lines ← records.mapM (·.existingNormalized)
  some { lines, lastSeqNo
         deletes := b.deleteRecords.map (·.asValue)
         builder := { b with
           insertRecords := records.take b.insertRecords.length
           updateRecords := records.drop b.insertRecords.length } }

theorem extend_nil : b.extend {} = b := by
  simp [extend]

theorem nil_extend : extend {} b = b := rfl

theorem extend_assoc (a b c : SpeedboatCommitBuilder) : (a.extend b).extend c = a.extend (b.extend c) := by
  simp [extend]

theorem mem_records_extend {a b : SpeedboatCommitBuilder} {r : RecordInput} :
    r ∈ (a.extend b).records ↔ r ∈ a.records ∨ r ∈ b.records := by
  simp only [records, extend, List.mem_append]
  tauto

theorem forall_records_extend {a b : SpeedboatCommitBuilder} {P : RecordInput → Prop} :
    (∀ r ∈ (a.extend b).records, P r) ↔ (∀ r ∈ a.records, P r) ∧ ∀ r ∈ b.records, P r := by
  simp only [mem_records_extend, or_imp, forall_and]

end SpeedboatCommitBuilder

end PowdrrEngine
