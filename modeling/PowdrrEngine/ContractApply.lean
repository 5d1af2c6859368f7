import PowdrrEngine.ContractCheckpoint

/-! The second way to make a checkpoint: `clone_and_apply` copies the latest one under a new id and
applies commits to the copy. The store over DynamoDB makes its checkpoints like this, while the
in-memory service has code of its own. An unknown commit type, a commit without a schema, an unknown
compaction and a column that would change its type stop the service. -/

namespace PowdrrEngine

namespace TableMetadataCheckpoint

def new (tableName checkpointId : String) (schema : PowdrrSchema) : TableMetadataCheckpoint :=
  { tableName, checkpointId, schema }

/-- `get_removed_files`: what the compactions have consumed, speedboat files and delete files. -/
def getRemovedFiles (compactions : List String) (lookup : Dict String CompactionCommit) :
    Option (List String × List String) := do
  let commits ← compactions.mapM lookup.lookup
  some (commits.flatMap (·.removedSpeedboatFiles), commits.flatMap (·.removedDeleteFiles))

variable (c : TableMetadataCheckpoint)

def speedboatWithout (removed : List String) : Option (Option SpeedboatMetadata) :=
  match c.speedboatMetadata with
  | some speedboat => (speedboat.files.remove removed).map fun files => some ⟨files⟩
  | none => some none

/-- Files that the compactions have consumed are gone. -/
def applyCompactions (compactions : List String)
    (lookup : Dict String CompactionCommit) : Option TableMetadataCheckpoint := do
  let (removedSpeedboat, removedDeletes) ← getRemovedFiles compactions lookup
  let speedboat ← c.speedboatWithout removedSpeedboat
  some { c with
    speedboatMetadata := speedboat
    deletesMetadata := c.deletesMetadata.map fun deletes =>
      ⟨deletes.files.filter fun file => file ∉ removedDeletes⟩
    extensionMetadata := c.extensionMetadata.mapValues fun _ metadata =>
      metadata.retain fun key _ => key ∉ removedSpeedboat }

/-- The schema after a table info; one without a schema changes nothing. -/
def mergedSchema (info : SpeedboatCommitTableInfo) : Option PowdrrSchema :=
  match info.schema with
  | some schema => c.schema.mergeFrom schema
  | none => some c.schema

/-- The body of the loop of `apply_speedboat`. -/
def applyTableInfo (info : SpeedboatCommitTableInfo) : Option TableMetadataCheckpoint :=
  if info.commitType = "delete" then
    some { c with deletesMetadata := some ⟨c.deletePaths ++ info.files⟩ }
  else if info.commitType = "commit" ∨ info.commitType = "compaction" then do
    let payload ← info.asFileSetPayload
    let files ← c.speedboatFiles.mergeInplace payload
    let schema ← c.mergedSchema info
    some { c with speedboatMetadata := some ⟨files⟩, schema }
  else none

/-- `apply_speedboat`: metadata that is missing is made, empty, first. -/
def applySpeedboat (commit : SpeedboatCommit)
    (lookup : Dict String CompactionCommit) : Option TableMetadataCheckpoint := do
  let c := { c with
    speedboatMetadata := some (c.speedboatMetadata.getD ⟨.new⟩)
    deletesMetadata := some (c.deletesMetadata.getD ⟨[]⟩) }
  let c ← commit.typeFiles.foldlM applyTableInfo c
  match commit.compaction with
  | some compaction => c.applyCompactions [compaction] lookup
  | none => some c

/-- The delete files after an iceberg commit: those that come with it are added. -/
def icebergDeletes (commit : IcebergCommit) : Option DeletesMetadata :=
  match commit.deletesTableInfo with
  | some info => some ⟨c.deletePaths ++ info.files⟩
  | none => c.deletesMetadata

/-- An iceberg commit replaces the iceberg files. -/
def applyIceberg (commit : IcebergCommit) (lookup : Dict String CompactionCommit) : Option TableMetadataCheckpoint := do
  let schema ← c.schema.mergeFrom commit.metadata.tableSchema
  let c := { c with
    icebergMetadata := some commit.metadata, deletesMetadata := c.icebergDeletes commit, schema }
  let c ← c.applyCompactions commit.compactions lookup
  some c.retainCurrentExtensionMetadata

/-- Whether `add_coverage` covers a path anew, its answer. -/
def coverageChanges (commit : ExtensionCommit) : Bool :=
  (c.icebergPaths ++ c.speedboatPaths ++ [checkpointExtensionMetadataKey c.checkpointId]).any fun path =>
    path ∈ commit.files && path ∉ c.extensionMap commit.extension

/-- `clone_and_apply`: the copy under the id drawn for it, and whether anything was applied. -/
def cloneAndApply (checkpointId : String)
    (speedboatCommits : List SpeedboatCommit) (icebergCommits : List IcebergCommit)
    (extensionCommits : List ExtensionCommit) (lookup : Dict String CompactionCommit) :
    Option (TableMetadataCheckpoint × Bool) := do
  let copy := { c with checkpointId }.retainCurrentExtensionMetadata
  let copy ← speedboatCommits.foldlM (fun (c, _) commit =>
    (applySpeedboat c commit lookup).map (·, true)) (copy, false)
  let copy ← icebergCommits.foldlM (fun (c, _) commit => (applyIceberg c commit lookup).map (·, true)) copy
  some (extensionCommits.foldl (fun (c, changed) commit =>
    (c.addCoverage commit, changed || c.coverageChanges commit)) copy)

end TableMetadataCheckpoint

end PowdrrEngine
