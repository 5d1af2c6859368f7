import PowdrrEngine.ServiceCutover

/-! Commits to the metadata service. A speedboat commit adds files or delete files to the latest
checkpoint of a table, an iceberg commit replaces its iceberg files and carries out the compactions
behind them, an extension commit covers data files and moves the extension's frontier. Each makes a
new checkpoint or none. An `unwrap`, an index out of range or a failed assertion stops the service
and is `none`. -/

namespace PowdrrEngine

namespace EphemeralServiceImpl

variable (s : EphemeralServiceImpl) (tableName : String)

/-- The checkpoint a commit builds on: the latest committed one, or a fresh one with the given schema.
A latest id without its checkpoint stops the service, as does a fresh one without a schema. -/
def latestCheckpoint (freshSchema : Option PowdrrSchema) : Option TableMetadataCheckpoint :=
  match s.getLatestMaterializedCheckpointSync tableName none with
  | some checkpointId => s.getCheckpointSync tableName checkpointId
  | none => freshSchema.map fun schema => { tableName, checkpointId := "", schema }

/-- `self.checkpoints.insert(format!("{}_{}", ..), ..)`. -/
def storeCheckpoint (tableName checkpointId : String) (checkpoint : TableMetadataCheckpoint) : EphemeralServiceImpl :=
  { s with checkpoints := s.checkpoints.insert (checkpointKey tableName checkpointId) checkpoint }

/-- The speedboat metadata of a checkpoint without the files a compaction has consumed. -/
def removeSpeedboatFiles (speedboat : Option SpeedboatMetadata) (removed : List String) :
    Option (Option SpeedboatMetadata) :=
  match speedboat with
  | some speedboat => (speedboat.files.remove removed).map fun files => some ⟨files⟩
  | none => some none

variable (compaction : String) (checkpoint : TableMetadataCheckpoint)

/-- `handle_compaction`: drop the files a compaction has consumed from a checkpoint in the making. -/
def handleCompaction : Option TableMetadataCheckpoint := do
  let (_, commit) ← s.compactions.lookup compaction
  let speedboat ← removeSpeedboatFiles checkpoint.speedboatMetadata commit.removedSpeedboatFiles
  some { checkpoint with
    speedboatMetadata := speedboat
    deletesMetadata := checkpoint.deletesMetadata.map fun deletes =>
      ⟨deletes.files.filter fun file => file ∉ commit.removedDeleteFiles⟩
    extensionMetadata := checkpoint.extensionMetadata.mapValues fun _ metadata =>
      metadata.retain fun key _ => key ∉ commit.removedSpeedboatFiles }

def handleCompactions (compactions : List String) (checkpoint : TableMetadataCheckpoint) :
    Option TableMetadataCheckpoint :=
  compactions.foldlM (fun checkpoint compaction => s.handleCompaction compaction checkpoint) checkpoint

/-- One loop of `try_fill_checkpoint_extension_metadata`: a file with recent extension files gets
them, the others are collected as work. -/
def fillFromRecent (tableName extension : String) (files : List FileDescriptor)
    (metadata : ExtensionFileMetadata) : ExtensionFileMetadata × FileSetPayload :=
  files.foldl (fun (metadata, missing) file =>
    match s.recentFileExtensionMetadata.lookup (recentFileKey tableName extension file.filePath) with
    | some extensionFiles => (metadata.insert file.filePath extensionFiles, missing)
    | none => (metadata, missing.add file)) (metadata, FileSetPayload.new)

/-- `try_fill_checkpoint_extension_metadata`: the checkpoint with the extension files known already,
and the speedboat and iceberg files that still need them. -/
def tryFillCheckpointExtensionMetadata (extension : String) (checkpoint : TableMetadataCheckpoint) :
    Option (TableMetadataCheckpoint × FileSetPayload × FileSetPayload) := do
  let checkpoint := checkpoint.retainCurrentExtensionMetadata
  let icebergFiles ← checkpoint.icebergFiles.asFileTuples
  let speedboatFiles ← checkpoint.speedboatFiles.asFileTuples
  let metadata := checkpoint.extensionMap extension
  let (metadata, icebergMissing) := s.fillFromRecent checkpoint.tableName extension icebergFiles metadata
  let (metadata, speedboatMissing) := s.fillFromRecent checkpoint.tableName extension speedboatFiles metadata
  some ({ checkpoint with extensionMetadata := checkpoint.extensionMetadata.insert extension metadata },
    speedboatMissing, icebergMissing)

/-- New work joins that of a tracker, which keeps its claim. -/
def extensionTracker (existing : Option ExtensionWorkItemTracker) (id tableName extension : String)
    (checkpointId : String) (schema : PowdrrSchema) (speedboatFiles icebergFiles : FileSetPayload) :
    Option ExtensionWorkItemTracker :=
  match existing with
  | none => some ⟨⟨id, extension, tableName, some checkpointId, schema, speedboatFiles, icebergFiles⟩, none⟩
  | some tracker => do
    let speedboatFiles ← tracker.workItem.speedboatFiles.merge speedboatFiles
    let icebergFiles ← tracker.workItem.icebergFiles.merge icebergFiles
    some { tracker with workItem := { tracker.workItem with
      checkpointId := some checkpointId, tableSchema := schema, speedboatFiles, icebergFiles } }

def storeExtensionTracker (extension tableName : String) (tracker : ExtensionWorkItemTracker) : EphemeralServiceImpl :=
  let items := (s.extensionWorkItems.getD extension ∅).insert tableName tracker
  { s with extensionWorkItems := s.extensionWorkItems.insert extension items }

variable (extension checkpointId : String)

/-- The checkpoint waits for its extension files. -/
def awaitExtension : EphemeralServiceImpl :=
  let key := extensionWorkKey tableName extension
  let waiting := s.checkpointsNeedingExtensionWork.getD key [] ++ [checkpointId]
  { s with checkpointsNeedingExtensionWork := s.checkpointsNeedingExtensionWork.insert key waiting }

def drawTrackerId (items : Dict String ExtensionWorkItemTracker) (tableName : String) : String × EphemeralServiceImpl :=
  if tableName ∈ items then ("", s) else s.nextId

/-- `fill_extension_work_item`. The tracker lives under `"es"` whatever the extension is. -/
def fillExtensionWorkItem (schema : PowdrrSchema)
    (speedboatFiles icebergFiles : FileSetPayload) : Option EphemeralServiceImpl :=
  if speedboatFiles.len = 0 ∧ icebergFiles.len = 0 then some s
  else do
    let items ← s.extensionWorkItems.lookup "es"
    let (id, s) := s.drawTrackerId items tableName
    let tracker ← extensionTracker (items.lookup tableName) id tableName extension checkpointId schema
      speedboatFiles icebergFiles
    some ((s.storeExtensionTracker "es" tableName tracker).awaitExtension tableName extension checkpointId)

/-- The checkpoints of a table that came after its pending compaction. -/
def noteNotCompacted (checkpointIds : List String) : EphemeralServiceImpl :=
  { s with notCompactedCheckpointIds := s.notCompactedCheckpointIds.insert tableName checkpointIds }

def storeCompactionTracker (tracker : CompactionWorkItemTracker) : EphemeralServiceImpl :=
  { s with compactionWorkItems := s.compactionWorkItems.insert tableName tracker }

/-- `maybe_create_compaction_work_item`: a table has at most one work item; while it waits, newer
checkpoints are only noted. -/
def maybeCreateCompactionWorkItem : Option EphemeralServiceImpl :=
  let tableName := checkpoint.tableName
  let noted := s.notCompactedCheckpointIds.getD tableName []
  if tableName ∈ s.compactionWorkItems then
    some (s.noteNotCompacted tableName (noted ++ [checkpoint.checkpointId]))
  else
    match checkpoint.speedboatMetadata with
    | none => some (s.noteNotCompacted tableName noted)
    | some speedboat =>
      if s.mode.threshold ≤ speedboat.files.filePaths.length ∨ 30 * 1024 * 1024 < speedboat.files.sizes.sum then do
        let (id, s) := s.nextId
        let workItem ← CompactionWorkItem.fromCheckpoint id checkpoint noted
        some ((s.storeCompactionTracker tableName ⟨workItem, none⟩).noteNotCompacted tableName [])
      else some (s.noteNotCompacted tableName noted)

/-! ### Speedboat commits -/

/-- The speedboat files after a commit: the commit's own `files` where there were none, otherwise the
union with its segments. -/
def committedSpeedboatFiles (latest : TableMetadataCheckpoint) (info : SpeedboatCommitTableInfo) :
    Option FileSetPayload :=
  match latest.speedboatMetadata with
  | none => info.schema.map fun schema =>
    { filePaths := info.files, sizes := info.sizes, schemas := [schema]
      fileSchemas := info.files.map fun _ => 0 }
  | some existing => info.asFileSetPayload.bind existing.files.merge

def committedSchema (latest : TableMetadataCheckpoint) (info : SpeedboatCommitTableInfo) : Option PowdrrSchema :=
  match info.schema with
  | some schema => latest.schema.mergeFrom schema
  | none => some latest.schema

variable (info : SpeedboatCommitTableInfo)

/-- A commit of rows: the latest checkpoint under a new id, with the files of the commit. -/
def speedboatCommitTypeCommit : Option EphemeralServiceImpl := do
  let latest ← s.latestCheckpoint info.tableName info.schema
  let (checkpointId, s) := s.nextId
  let files ← committedSpeedboatFiles latest info
  let schema ← committedSchema latest info
  let checkpoint := { latest with
    tableName := info.tableName, originalCheckpointId := none, checkpointId
    speedboatMetadata := some ⟨files⟩, schema }
  let (checkpoint, speedboatFiles, icebergFiles) ← s.tryFillCheckpointExtensionMetadata "es" checkpoint
  let s := s.storeCheckpoint info.tableName checkpointId checkpoint
  let s ← s.fillExtensionWorkItem info.tableName "es" checkpointId schema speedboatFiles icebergFiles
  let s := s.setLatestCommittedCheckpoint info.tableName none checkpointId
  s.maybeCreateCompactionWorkItem checkpoint

/-- `speedboat_commit_type_delete`: the delete files are appended, repeats included. -/
def speedboatCommitTypeDelete : Option EphemeralServiceImpl := do
  let latest ← s.latestCheckpoint info.tableName (some .minimal)
  let (checkpointId, s) := s.nextId
  let checkpoint := { latest with
    tableName := info.tableName, originalCheckpointId := none, checkpointId
    deletesMetadata := some ⟨latest.deletePaths ++ info.files⟩ }
  let (checkpoint, _, _) ← s.tryFillCheckpointExtensionMetadata "es" checkpoint
  let s := s.storeCheckpoint info.tableName checkpointId checkpoint
  some (s.setLatestCommittedCheckpoint info.tableName none checkpointId)

/-- The body of the loop of `speedboat_commit`; an unknown commit type stops the service. -/
def speedboatCommitTableInfo : Option EphemeralServiceImpl :=
  if info.commitType = "commit" ∨ info.commitType = "compact" then s.speedboatCommitTypeCommit info
  else if info.commitType = "delete" then s.speedboatCommitTypeDelete info
  else none

/-- `speedboat_commit`; a commit that names a compaction is refused by an assertion. -/
def speedboatCommit (commit : SpeedboatCommit) : Option EphemeralServiceImpl :=
  match commit.compaction with
  | some _ => none
  | none => do
    let s ← commit.typeFiles.foldlM speedboatCommitTableInfo s
    let touched := (commit.typeFiles.map (·.tableName)).dedup
    some (touched.foldl (fun s tableName =>
      s.queuePublicationRequest defaultMetadataNamespace tableName) s)

/-! ### Iceberg commits -/

/-- `replace_and_delete_checkpoints`: the compaction's work item is done, and the files it consumed
become a cleanup work item. -/
def replaceAndDeleteCheckpoints : Option (CleanupWorkItem × EphemeralServiceImpl) := do
  let (tableName, commit) ← s.compactions.lookup compaction
  let tracker ← s.compactionWorkItems.lookup tableName
  if tracker.workItem.checkpointIdToReplace = commit.checkpointIdToReplace ∧ tracker.workItem.id = compaction then
    let s := { s with compactionWorkItems := s.compactionWorkItems.erase tableName }
    let (id, s) := s.nextId
    some (⟨id, tableName, commit.removedSpeedboatFiles ++ commit.removedDeleteFiles⟩, s)
  else none

/-- The body of the last loop of `iceberg_commit`. -/
def finishCompaction : Option EphemeralServiceImpl := do
  let (workItem, s) ← s.replaceAndDeleteCheckpoints compaction
  some { s with cleanupWorkItems := s.cleanupWorkItems ++ [⟨workItem, none⟩] }

/-- `iceberg_commit`. The new checkpoint takes the commit's iceberg files, and what the compactions
have consumed leaves its speedboat and delete files. -/
def icebergCommit (commit : IcebergCommit) : Option EphemeralServiceImpl := do
  let latest ← s.latestCheckpoint tableName (some commit.metadata.tableSchema)
  let (checkpointId, s) := s.nextId
  let schema ← latest.schema.mergeFrom commit.metadata.tableSchema
  let checkpoint := { latest with
    tableName, originalCheckpointId := none, checkpointId
    icebergMetadata := some commit.metadata, schema }
  let checkpoint ← s.handleCompactions commit.compactions checkpoint
  let (checkpoint, speedboatFiles, icebergFiles) ← s.tryFillCheckpointExtensionMetadata "es" checkpoint
  let s := s.storeCheckpoint tableName checkpointId checkpoint
  let s := s.setLatestCommittedCheckpoint tableName none checkpointId
  let s ← s.fillExtensionWorkItem tableName "es" checkpointId schema speedboatFiles icebergFiles
  let s ← commit.compactions.foldlM finishCompaction s
  some (s.queuePublicationRequest defaultMetadataNamespace tableName)

/-! ### Extension, compaction and cleanup commits -/

/-- A checkpoint that no longer waits for an extension. -/
def stopAwaiting : EphemeralServiceImpl :=
  let key := extensionWorkKey tableName extension
  let drop := fun ids : List String => ids.filter fun id => id ≠ checkpointId
  { s with checkpointsNeedingExtensionWork := s.checkpointsNeedingExtensionWork.modify key drop }

/-- `add_coverage_for`: cover one waiting checkpoint; its id is returned, and no longer waited for,
where that covers it fully. -/
def addCoverageFor (tableName checkpointId : String) (commit : ExtensionCommit) :
    Option (Option String × EphemeralServiceImpl) := do
  let checkpoint ← s.getCheckpointSync tableName checkpointId
  let checkpoint := checkpoint.addCoverage commit
  let s := s.storeCheckpoint tableName checkpointId checkpoint
  let covered ← checkpoint.fullyCoveredForExtension commit.extension
  some (if covered then (some checkpointId, s.stopAwaiting tableName commit.extension checkpointId)
    else (none, s))

variable (commit : ExtensionCommit)

/-- `add_coverage_for` over every waiting checkpoint; the ids that became fully covered. -/
def addCoverageForAll (checkpointIds : List String) : Option (List String × EphemeralServiceImpl) :=
  checkpointIds.foldlM (fun (covered, s) checkpointId =>
    (addCoverageFor s tableName checkpointId commit).map fun (id, s) => (covered ++ id.toList, s)) ([], s)

def addRecentExtensionFiles : EphemeralServiceImpl :=
  let recent := commit.files.entries.map fun e => (recentFileKey tableName commit.extension e.1, e.2)
  { s with recentFileExtensionMetadata := s.recentFileExtensionMetadata.insertAll recent }

/-- `apply_extension_commit_to_work_item`: the covered files are no longer work, and the tracker may
be claimed again. -/
def applyExtensionCommitToWorkItem : Option EphemeralServiceImpl :=
  match (s.extensionWorkItems.lookup commit.extension).bind fun items => items.lookup tableName with
  | none => some s
  | some tracker => do
    let speedboatFiles ← tracker.workItem.speedboatFiles.remove commit.files.keys
    let icebergFiles ← tracker.workItem.icebergFiles.remove commit.files.keys
    some (s.storeExtensionTracker commit.extension tableName
      ⟨{ tracker.workItem with speedboatFiles, icebergFiles }, none⟩)

def maxText : List String → Option String
  | [] => none
  | id :: ids => some (ids.foldl (fun acc id => if acc ≤ id then id else acc) id)

/-- The tail of `extension_commit`: the frontier of `"es"` moves to a covered checkpoint with a
greater id. -/
def advanceExtensionFrontier (tableName maxId : String) : EphemeralServiceImpl :=
  match s.getLatestMaterializedCheckpointSync tableName (some "es") with
  | some latest =>
    if latest < maxId then s.setLatestCommittedCheckpoint tableName (some "es") maxId else s
  | none => s.setLatestCommittedCheckpoint tableName (some "es") maxId

/-- `extension_commit`; it is an error to commit where no checkpoint waits or none gets covered. -/
def extensionCommit : Option EphemeralServiceImpl := do
  let waiting := s.checkpointsNeedingExtensionWork.getD (extensionWorkKey tableName commit.extension) []
  let (covered, s) ← s.addCoverageForAll tableName commit waiting
  let maxId ← maxText covered
  let s := s.addRecentExtensionFiles tableName commit
  let s ← s.applyExtensionCommitToWorkItem tableName commit
  let s := s.advanceExtensionFrontier tableName maxId
  some (s.queuePublicationRequest defaultMetadataNamespace tableName)

/-- `compaction_commit`: only noted; the checkpoint changes with the iceberg commit. -/
def compactionCommit (commit : CompactionCommit) : EphemeralServiceImpl :=
  { s with compactions := s.compactions.insert commit.compactionId (tableName, commit) }

def cleanupCommit (commit : CleanupCommit) : EphemeralServiceImpl :=
  { s with cleanupWorkItems := s.cleanupWorkItems.filter fun tracker => tracker.workItem.id ≠ commit.id }

variable (metadata : TableMetadataCheckpoint)

/-- The part of `add_checkpoint` before the frontiers: the table and the checkpoint, each only where
there is none yet. -/
def storeAddedCheckpoint : EphemeralServiceImpl :=
  let tableName := metadata.tableName
  let s := if tableName ∈ s.tables then s
    else { s with tables := s.tables.insert tableName { name := tableName } }
  if checkpointKey tableName metadata.checkpointId ∈ s.checkpoints then s
  else s.storeCheckpoint tableName metadata.checkpointId metadata

/-- The part of `add_checkpoint` for the extensions: a checkpoint that comes with extension metadata
becomes the frontier of each of its extensions, another one becomes work. -/
def addCheckpointExtensions : Option EphemeralServiceImpl :=
  if metadata.extensionMetadata.keys ≠ [] then
    some (metadata.extensionMetadata.keys.foldl (fun s extension =>
      s.setLatestCommittedCheckpointId (some extension) metadata.tableName metadata.checkpointId) s)
  else
    s.fillExtensionWorkItem metadata.tableName "es" metadata.checkpointId metadata.schema
      metadata.speedboatFiles metadata.icebergFiles

/-- `add_checkpoint`: store a ready-made checkpoint, creating its table if need be. -/
def addCheckpoint : Option EphemeralServiceImpl := do
  let s := s.storeAddedCheckpoint metadata
  let s := s.setLatestCommittedCheckpointId none metadata.tableName metadata.checkpointId
  let s ← s.addCheckpointExtensions metadata
  some (s.queuePublicationRequest defaultMetadataNamespace metadata.tableName)

/-! ### Claiming work -/

variable (now : Int)

def claimLeaseExpiresAtMs : Int := now + workClaimLeaseLengthMs

/-- `get_extension_work_items`: only `"es"` has work to claim. -/
def getExtensionWorkItems (extensionType : String) : List ExtensionWorkItem × EphemeralServiceImpl :=
  if extensionType = "es" then
    match s.extensionWorkItems.lookup extensionType with
    | none => ([], s)
    | some items =>
      let claimable := fun tracker : ExtensionWorkItemTracker =>
        tracker.workItem.hasWork && leaseIsAvailable now tracker.leaseExpiresAtMs
      let claimed := items.mapValues fun _ tracker => if claimable tracker then
        { tracker with leaseExpiresAtMs := some (claimLeaseExpiresAtMs now) } else tracker
      ((items.values.filter claimable).map (·.workItem),
        { s with extensionWorkItems := s.extensionWorkItems.insert extensionType claimed })
  else ([], s)

def getCompactionWorkItems : List (String × CompactionWorkItem) × EphemeralServiceImpl :=
  let claimed := s.compactionWorkItems.mapValues fun _ tracker =>
    if leaseIsAvailable now tracker.leaseExpiresAtMs then
      { tracker with leaseExpiresAtMs := some (claimLeaseExpiresAtMs now) } else tracker
  ((s.compactionWorkItems.entries.filter fun e => leaseIsAvailable now e.2.leaseExpiresAtMs).map
      fun e => (e.1, e.2.workItem),
    { s with compactionWorkItems := claimed })

/-- `checkpoint_references_any_cleanup_file`: the speedboat and the delete files are looked at. -/
def checkpointReferencesAnyCleanupFile (filesToDelete : List String) : Bool :=
  (checkpoint.speedboatPaths.any fun file => file ∈ filesToDelete) ||
    (checkpoint.deletePaths.any fun file => file ∈ filesToDelete)

/-- `cleanup_work_item_is_ready`: the active checkpoints without an extension and with `"es"` are
looked at; where there is no active checkpoint, nothing is. -/
def cleanupWorkItemIsReady (workItem : CleanupWorkItem) : Bool :=
  [none, some "es"].all fun extension =>
    match (s.getPublishedCheckpointSync .active workItem.tableName extension).bind fun checkpointId =>
        s.getCheckpointSync workItem.tableName checkpointId with
    | some checkpoint => !checkpointReferencesAnyCleanupFile checkpoint workItem.filesToDelete
    | none => true

/-- A cleanup work item that may be handed out now. -/
def cleanupClaimable (tracker : CleanupWorkItemTracker) : Bool :=
  s.cleanupWorkItemIsReady tracker.workItem && leaseIsAvailable now tracker.leaseExpiresAtMs

def getCleanupWorkItems : List CleanupWorkItem × EphemeralServiceImpl :=
  ((s.cleanupWorkItems.filter (s.cleanupClaimable now)).map (·.workItem),
    { s with cleanupWorkItems := s.cleanupWorkItems.map fun tracker =>
        if s.cleanupClaimable now tracker then
          { tracker with leaseExpiresAtMs := some (claimLeaseExpiresAtMs now) }
        else tracker })

/-! ### Tables, templates, pipelines and policies -/

/-- `create_table`; an existing description is replaced. -/
def createTable (request : CreateTable) : EphemeralServiceImpl :=
  let tables := s.tables.insert request.name (.fromCreateTable request)
  if request.name ∈ s.tables then { s with tables }
  else { s with tables, notCompactedCheckpointIds := s.notCompactedCheckpointIds.insert request.name [] }

variable (name : String)

def describeTable : Option TableDescription := s.tables.lookup (s.realTableName name)

def addAlias (tableName alias_ : String) : EphemeralServiceImpl :=
  { s with tableAliases := s.tableAliases.insert alias_ tableName }

def removeAlias (alias_ : String) : EphemeralServiceImpl := { s with tableAliases := s.tableAliases.erase alias_ }

def createTableTemplate (template : Value) : EphemeralServiceImpl :=
  { s with tableTemplates := s.tableTemplates.insert name template }

/-- `create_pipeline`; a second pipeline of a name stops the service. -/
def createPipeline (pipeline : Value) : Option EphemeralServiceImpl :=
  if name ∈ s.pipelines then none else some { s with pipelines := s.pipelines.insert name pipeline }

/-- `create_lifetime_policy`; a second policy of a name stops the service. -/
def createLifetimePolicy (policy : Value) : Option EphemeralServiceImpl :=
  if name ∈ s.lifetimePolicies then none
  else some { s with lifetimePolicies := s.lifetimePolicies.insert name policy }

end EphemeralServiceImpl

end PowdrrEngine
