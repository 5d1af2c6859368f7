import PowdrrEngine.ServingTopK
import PowdrrEngine.DynamoItem
import Mathlib.Data.List.Sort

/-! A DynamoDB table over checkpoints. A write reads the rows of all iceberg files of the latest
checkpoint, edits the list and publishes a checkpoint with one new file: the schema is inferred again
from the rows, the rows are brought to it and written. Arrow and Parquet are given by what they return. -/

namespace PowdrrEngine

/-- What the libraries and the host return. `inferJsonSchema` is the schema that Arrow infers from the
text of a row, none where it stops the service. `writeParquet` writes rows under a schema and returns the
size of the file together with the rows that `SELECT *` reads from it, or the text of an error. -/
structure DynamoRuntime where
  floatText : F64 → String
  jsonText : Value → String
  inferJsonSchema : JsonMap → Option PowdrrSchema
  writeParquet : PowdrrSchema → List JsonMap → Except String (Nat × List JsonMap)
  s3IngestBasePath : String
  tempDir : String

/-! ### Schemas of rows -/

namespace PowdrrSchema

mutual

def defaultSerdeValue : PowdrrDataType → Value
  | .object schema => .object (defaultMembers schema)
  | _ => .null
termination_by structural t => t

def defaultMembers : PowdrrSchema → List (String × Value)
  | ⟨fields⟩ => defaultFields fields
termination_by structural s => s

def defaultFields : List PowdrrField → List (String × Value)
  | [] => []
  | field :: fields => defaultField field :: defaultFields fields
termination_by structural fields => fields

def defaultField : PowdrrField → String × Value
  | ⟨name, dataType⟩ => (name, defaultSerdeValue dataType)
termination_by structural field => field

end

mutual

/-- A value of a column: in a column of objects the value has to be an object and is brought to the
schema of the column. -/
def coerceTyped : PowdrrDataType → Value → Option Value
  | .object schema, .object members =>
    (coerceMap schema (Dict.insertAll ∅ members)).map fun object => .object (JsonMap.toPairs object)
  | .object _, _ => none
  | _, value => some value
termination_by structural t => t

/-- `coerce_value`: a missing field gets its default. None where the assertion on objects fails. -/
def coerceMap : PowdrrSchema → JsonMap → Option JsonMap
  | ⟨fields⟩, object => coerceFields fields object
termination_by structural s => s

def coerceFields : List PowdrrField → JsonMap → Option JsonMap
  | [], object => some object
  | field :: fields, object => (coerceField field object).bind fun object => coerceFields fields object
termination_by structural fields => fields

def coerceField : PowdrrField → JsonMap → Option JsonMap
  | ⟨name, dataType⟩, object =>
    match object.lookup name with
    | none => some (object.insert name (defaultSerdeValue dataType))
    | some value => (coerceTyped dataType value).map fun value => object.insert name value
termination_by structural field => field

end

end PowdrrSchema

variable (rt : DynamoRuntime) (rows : List JsonMap)

def mergedRowSchema (fallbackSchema : PowdrrSchema) : Option PowdrrSchema :=
  if rows = [] then some fallbackSchema
  else (rows.mapM rt.inferJsonSchema).bind PowdrrSchema.mergeAll

def coerceRowsToSchema (schema : PowdrrSchema) : Option (List JsonMap) := rows.mapM schema.coerceMap

/-! ### Checkpoints -/

variable (checkpoint : TableMetadataCheckpoint)

/-- `checkpoint_file_descriptors`. A file set that is out of step stops the service. -/
def checkpointFileDescriptors (operation : String) : DynamoResult (List FileDescriptor) :=
  match checkpoint.icebergMetadata with
  | none => .validation ("DynamoDB " ++ operation ++ " currently requires Iceberg-backed storage")
  | some metadata =>
    if checkpoint.deletePaths ≠ [] then
      .validation ("Delete-aware DynamoDB " ++ operation ++ " is not implemented yet")
    else
      match metadata.files.asFileTuples with
      | none => .panicked
      | some files => .ok files

def schemaFromCheckpoint : DynamoResult PowdrrSchema :=
  match checkpoint.icebergMetadata with
  | some metadata => .ok metadata.tableSchema
  | none =>
    if checkpoint.schema.fields ≠ [] then .ok checkpoint.schema
    else .internal "Checkpoint did not contain a usable schema"

def sanitizePathComponent (name : String) : String :=
  String.ofList (name.toList.map fun character =>
    if character ∈ ['/', '\\', ':', ' '] then '_' else character)

/-- The place of a new file in the local directory for writes. -/
def localOutputPath (table fileName : String) : String :=
  "file://" ++ rt.tempDir ++ "/powdrr-dynamodb-writes/" ++ table ++ "/" ++ fileName

def mutationOutputFilePath (checkpointId : String) : DynamoResult String :=
  let sanitizedTable := sanitizePathComponent checkpoint.tableName
  let fileName := checkpointId ++ ".parquet"
  match checkpoint.icebergPaths.head? with
  | none => .ok (localOutputPath rt sanitizedTable fileName)
  | some path =>
    if "s3://".toList <+: path.toList then
      .ok (rt.s3IngestBasePath ++ "/dynamodb-write/" ++ sanitizedTable ++ "/" ++ fileName)
    else if "://".toList <:+: path.toList ∧ ¬ "file://".toList <+: path.toList then
      .validation ("DynamoDB writes do not support storage path " ++ path)
    else .ok (localOutputPath rt sanitizedTable fileName)

/-! ### The table -/

/-- A table: its configuration, the latest checkpoint, which is taken to be the active one, and the rows of
the data files by their path. -/
structure DynamoDbTable where
  config : DynamoDbTableConfig
  checkpoint : TableMetadataCheckpoint
  files : Dict String (List JsonMap)

def primaryKeySchema (config : DynamoDbTableConfig) : DynamoDbKeySchemaConfig := ⟨config.partitionKey, config.sortKey⟩

namespace DynamoDbTable

variable (table : DynamoDbTable)

def keySchema : DynamoDbKeySchemaConfig := primaryKeySchema table.config

def fileRows (path : String) : List JsonMap := table.files.getD path []

def items : List JsonMap := (table.checkpoint.icebergPaths ++ table.checkpoint.speedboatPaths).flatMap table.fileRows

/-- `load_mutable_table_rows`: the files of one schema are read together. -/
def loadMutableTableRows : DynamoResult (List JsonMap) :=
  (checkpointFileDescriptors table.checkpoint "writes").map fun files =>
    (groupFilesBySchema files).flatMap fun group => group.flatMap fun file => table.fileRows file.filePath

end DynamoDbTable

/-- The checkpoint that a write publishes. -/
def mutatedCheckpoint (previous : TableMetadataCheckpoint) (metadata : IcebergMetadata)
    (schema : PowdrrSchema) (checkpointId outputPath : String) (fileSize : Nat) : TableMetadataCheckpoint :=
  { tableName := previous.tableName
    originalCheckpointId := some previous.checkpointId
    checkpointId := checkpointId
    icebergMetadata := some
      { tableSchema := schema
        snapshotId := some checkpointId
        files := .single outputPath fileSize schema
        partitionSpec := metadata.partitionSpec
        sortOrder := metadata.sortOrder
        columnNames := schema.fields.map (·.name)
        columnStats := []
        accessArtifacts := metadata.accessArtifacts
        fileStats := [] }
    speedboatMetadata := none
    deletesMetadata := none
    extensionMetadata := ∅
    schema := schema }

/-- `ok_or_else` of a function that panics. -/
def orPanic {α : Type} : Option α → DynamoResult α
  | none => .panicked
  | some a => .ok a

theorem orPanic_eq_ok {α : Type} {value : Option α} {a : α} : orPanic value = .ok a ↔ value = some a := by
  cases value <;> simp [orPanic, DynamoResult.panicked]

def writeRowsToParquet (schema : PowdrrSchema) : DynamoResult (Nat × List JsonMap) :=
  match rt.writeParquet schema rows with
  | .ok written => .ok written
  | .error message => .internal message

/-- `publish_mutated_checkpoint`: what it is given does not depend on what the table holds by now. -/
def DynamoDbTable.publishMutatedCheckpoint (table : DynamoDbTable)
    (previous : TableMetadataCheckpoint) (rows : List JsonMap) (checkpointId : String) :
    DynamoResult DynamoDbTable := do
  let fallbackSchema ← schemaFromCheckpoint previous
  let metadata ← .ofOption previous.icebergMetadata
    (.validation "DynamoDB writes currently require Iceberg-backed storage")
  let schema ← orPanic (mergedRowSchema rt rows fallbackSchema)
  let rows ← orPanic (coerceRowsToSchema rows schema)
  let outputPath ← mutationOutputFilePath rt previous checkpointId
  let (fileSize, written) ← writeRowsToParquet rt rows schema
  .ok { table with checkpoint := mutatedCheckpoint previous metadata schema checkpointId outputPath fileSize
                   files := table.files.insert outputPath written }

end PowdrrEngine
