import PowdrrEngine.LibRun
import PowdrrEngine.ServiceCommits

/-! The interface of the metadata service as one step function: a call with the clock reading at which
it runs is answered and leaves the service in its next state, or stops it. Runs of the service are
runs of this step. -/

namespace PowdrrEngine

/-- The calls of `ServiceApi` and `MetadataStore`. -/
inductive ServiceCall where
  | getAllIcebergTables
  | createTable (request : CreateTable)
  | upsertTableMetadata (request : CreateTable)
  | describeTable (name : String)
  | addAlias (tableName aliasName : String)
  | removeAlias (tableName aliasName : String)
  | createTableTemplate (name : String) (template : Value)
  | describeTableTemplate (name : String)
  | createPipeline (name : String) (pipeline : Value)
  | describePipeline (name : String)
  | createLifetimePolicy (name : String) (policy : Value)
  | describeLifetimePolicy (name : String)
  | addCheckpoint (metadata : TableMetadataCheckpoint)
  | speedboatCommit (commit : SpeedboatCommit)
  | icebergCommit (tableName : String) (commit : IcebergCommit)
  | extensionCommit (tableName : String) (commit : ExtensionCommit)
  | compactionCommit (tableName : String) (commit : CompactionCommit)
  | cleanupCommit (commit : CleanupCommit)
  | getLatestCommittedCheckpoint (tableName : String) (extension : Option String)
  | getLatestTargetCheckpoint (tableName : String) (extension : Option String)
  | getPublishedActiveCheckpoint (tableName : String) (extension : Option String)
  | getPublishedCheckpointRecord (selector : PublishedCheckpointSelector)
  | getCheckpoint (descriptor : CheckpointDescriptor)
  | getExtensionWorkItems (extensionType : String)
  | getCompactionWorkItems
  | getCleanupWorkItems
  | queueCheckpointPublication (request : CheckpointUpdateRequest)
  | updateAllCheckpoints
  | planCheckpointCutover (request : CheckpointCutoverRequest)
  | getCheckpointCutoverState (tableName : String) (extension : Option String)
  | heartbeatServingNode (lease : ServingNodeLease)
  | recordServingNodeActivation (ack : ServingNodeActivationAck)
  | listServingNodeActivations (tableName : String) (extension : Option String)
  | recordArtifactReadiness (ack : ArtifactReadinessAck)
  | listArtifactReadiness (tableName : String) (extension : Option String)

def ServiceCall.isCoordination : ServiceCall → Bool
  | .updateAllCheckpoints | .planCheckpointCutover _ | .getCheckpointCutoverState ..
  | .heartbeatServingNode _ | .recordServingNodeActivation _ | .recordArtifactReadiness _ => true
  | _ => false

def ServiceCall.isCommit : ServiceCall → Bool
  | .addCheckpoint _ | .speedboatCommit _ | .icebergCommit .. | .extensionCommit .. => true
  | _ => false

/-- The extensions whose frontier a call may move. -/
def ServiceCall.frontiers : ServiceCall → List (Option String)
  | .addCheckpoint metadata => none :: metadata.extensionMetadata.keys.map some
  | .speedboatCommit _ | .icebergCommit .. => [none]
  | .extensionCommit .. => [some "es"]
  | _ => []

theorem ServiceCall.isCommit_of_mem_frontiers {call : ServiceCall} {extension : Option String}
    (h : extension ∈ call.frontiers) : call.isCommit = true := by
  cases call <;> first | rfl | cases h

/-- What a call is answered with. -/
inductive ServiceAnswer where
  | done
  | flag (value : Bool)
  | tableNames (names : List String)
  | table (description : Option TableDescription)
  | document (body : Option Value)
  | checkpointId (id : Option String)
  | record (record : Option PublishedCheckpointRecord)
  | checkpoint (metadata : Option TableMetadataCheckpoint)
  | extensionWork (items : List ExtensionWorkItem)
  | compactionWork (items : List (String × CompactionWorkItem))
  | cleanupWork (items : List CleanupWorkItem)
  | cutoverState (state : CheckpointCutoverState)
  | activations (acks : List ServingNodeActivationAck)
  | readiness (acks : List ArtifactReadinessAck)

/-- A call together with the clock reading at which it runs, in milliseconds. -/
structure TimedCall where
  now : Int
  call : ServiceCall

namespace EphemeralServiceImpl

variable (s : EphemeralServiceImpl)

/-- `get_latest_target_checkpoint`, the default of `MetadataStore`. -/
def getLatestTargetCheckpoint (tableName : String) (extension : Option String) : Option String :=
  (s.getPublishedCheckpointSync .target tableName extension).or
    (s.getLatestMaterializedCheckpointSync tableName extension)

def answer (now : Int) : ServiceCall → Option (ServiceAnswer × EphemeralServiceImpl)
  | .getAllIcebergTables => some (.tableNames s.tables.keys, s)
  | .createTable request => some (.flag true, s.createTable request)
  | .upsertTableMetadata request => some (.flag true, s.createTable request)
  | .describeTable name => some (.table (s.describeTable name), s)
  | .addAlias tableName aliasName => some (.flag true, s.addAlias tableName aliasName)
  | .removeAlias _ aliasName => some (.flag true, s.removeAlias aliasName)
  | .createTableTemplate name template => some (.flag true, s.createTableTemplate name template)
  | .describeTableTemplate name => some (.document (s.tableTemplates.lookup name), s)
  | .createPipeline name pipeline => (s.createPipeline name pipeline).map (.flag true, ·)
  | .describePipeline name => some (.document (s.pipelines.lookup name), s)
  | .createLifetimePolicy name policy => (s.createLifetimePolicy name policy).map (.flag true, ·)
  | .describeLifetimePolicy name => some (.document (s.lifetimePolicies.lookup name), s)
  | .addCheckpoint metadata => (s.addCheckpoint metadata).map (.done, ·)
  | .speedboatCommit commit => (s.speedboatCommit commit).map (.flag true, ·)
  | .icebergCommit tableName commit => (s.icebergCommit tableName commit).map (.flag true, ·)
  | .extensionCommit tableName commit => (s.extensionCommit tableName commit).map (.flag true, ·)
  | .compactionCommit tableName commit => some (.flag true, s.compactionCommit tableName commit)
  | .cleanupCommit commit => some (.flag true, s.cleanupCommit commit)
  | .getLatestCommittedCheckpoint tableName extension =>
    some (.checkpointId (s.getLatestMaterializedCheckpointSync tableName extension), s)
  | .getLatestTargetCheckpoint tableName extension =>
    some (.checkpointId (s.getLatestTargetCheckpoint tableName extension), s)
  | .getPublishedActiveCheckpoint tableName extension =>
    some (.checkpointId (s.getPublishedCheckpointSync .active tableName extension), s)
  | .getPublishedCheckpointRecord selector => some (.record (s.getPublishedCheckpointRecord selector), s)
  | .getCheckpoint descriptor =>
    some (.checkpoint (s.getCheckpointSync descriptor.tableName descriptor.checkpointId), s)
  | .getExtensionWorkItems extensionType =>
    let (items, s) := s.getExtensionWorkItems now extensionType
    some (.extensionWork items, s)
  | .getCompactionWorkItems =>
    let (items, s) := s.getCompactionWorkItems now
    some (.compactionWork items, s)
  | .getCleanupWorkItems =>
    let (items, s) := s.getCleanupWorkItems now
    some (.cleanupWork items, s)
  | .queueCheckpointPublication request =>
    some (.done, s.queuePublicationRequest defaultMetadataNamespace request.tableName)
  | .updateAllCheckpoints =>
    let (workDone, s) := s.updateAllCheckpoints now
    some (.flag workDone, s)
  | .planCheckpointCutover request => some (.done, s.planCheckpointCutover now request)
  | .getCheckpointCutoverState tableName extension =>
    let (state, s) := s.getCheckpointCutoverState now tableName extension
    some (.cutoverState state, s)
  | .heartbeatServingNode lease => some (.done, s.heartbeatServingNode now lease)
  | .recordServingNodeActivation ack => some (.done, s.recordServingNodeActivation ack)
  | .listServingNodeActivations tableName extension =>
    some (.activations (s.listServingNodeActivations tableName extension), s)
  | .recordArtifactReadiness ack => some (.done, s.recordArtifactReadiness ack)
  | .listArtifactReadiness tableName extension =>
    some (.readiness (s.listArtifactReadiness tableName extension), s)

theorem answer_updateAllCheckpoints (now : Int) : s.answer now .updateAllCheckpoints =
      some (.flag (s.updateAllCheckpoints now).1, (s.updateAllCheckpoints now).2) := by
  unfold answer
  rfl

/-- The state after a call, its answer left aside. -/
def step (c : TimedCall) : Option EphemeralServiceImpl := (s.answer c.now c.call).map Prod.snd

section

variable {s : EphemeralServiceImpl} {now : Int} {tableName : String}

theorem step_speedboatCommit (commit : SpeedboatCommit) :
    s.step ⟨now, .speedboatCommit commit⟩ = s.speedboatCommit commit := by simp [step, answer]

theorem step_icebergCommit (commit : IcebergCommit) :
    s.step ⟨now, .icebergCommit tableName commit⟩ = s.icebergCommit tableName commit := by
  simp [step, answer]

theorem step_extensionCommit (commit : ExtensionCommit) :
    s.step ⟨now, .extensionCommit tableName commit⟩ = s.extensionCommit tableName commit := by
  simp [step, answer]

theorem step_addCheckpoint (metadata : TableMetadataCheckpoint) :
    s.step ⟨now, .addCheckpoint metadata⟩ = s.addCheckpoint metadata := by simp [step, answer]

end

end EphemeralServiceImpl

end PowdrrEngine
