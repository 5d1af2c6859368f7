import PowdrrEngine.ServiceCalls

/-! What the Raft-backed service keeps in the replicated state machine: a snapshot of the metadata
service as text. Every call restores a service from the snapshot, and a call of the write path stores
the snapshot of the service it leaves. -/

namespace PowdrrEngine

/-- `EphemeralServiceSnapshot`: the fields of the service, with text in place of an optional extension
as the key of the committed checkpoints. -/
structure EphemeralServiceSnapshot where
  tables : Dict String TableDescription := ∅
  tableAliases : Dict String String := ∅
  tableTemplates : Dict String Value := ∅
  pipelines : Dict String Value := ∅
  lifetimePolicies : Dict String Value := ∅
  latestCommittedCheckpointId : Dict String (Dict String String) := ∅
  publishedCheckpointId : Dict String String := ∅
  checkpointPublicationRequests : Dict String CheckpointUpdateRequest := ∅
  checkpointCutoverEpochs : Dict String CutoverEpoch := ∅
  cutoverMembershipViews : Dict String CutoverMembershipView := ∅
  servingNodeLeases : Dict String ServingNodeLease := ∅
  servingNodeActivations : Dict String (Dict String ServingNodeActivationAck) := ∅
  artifactReadinessAcks : Dict String (Dict ArtifactClass ArtifactReadinessAck) := ∅
  compactionWorkItems : Dict String CompactionWorkItemTracker := ∅
  notCompactedCheckpointIds : Dict String (List String) := ∅
  extensionWorkItems : Dict String (Dict String ExtensionWorkItemTracker) := ∅
  cleanupWorkItems : List CleanupWorkItemTracker := []
  compactions : Dict String (String × CompactionCommit) := ∅
  checkpoints : Dict String TableMetadataCheckpoint := ∅
  checkpointsNeedingExtensionWork : Dict String (List String) := ∅
  recentFileExtensionMetadata : Dict String (List ExtensionFile) := ∅

namespace EphemeralServiceImpl

def serializeLatestCommittedCheckpointId (checkpoints : Dict (Option String) (Dict String String)) :
    Dict String (Dict String String) :=
  Dict.insertAll ∅ (checkpoints.entries.map fun e => (extensionStorageKey e.1, e.2))

def deserializeLatestCommittedCheckpointId (checkpoints : Dict String (Dict String String)) :
    Dict (Option String) (Dict String String) :=
  Dict.insertAll ∅ (checkpoints.entries.map fun e => (extensionFromStorageKey e.1, e.2))

def snapshotState (s : EphemeralServiceImpl) : EphemeralServiceSnapshot :=
  { tables := s.tables
    tableAliases := s.tableAliases
    tableTemplates := s.tableTemplates
    pipelines := s.pipelines
    lifetimePolicies := s.lifetimePolicies
    latestCommittedCheckpointId := serializeLatestCommittedCheckpointId s.latestCommittedCheckpointId
    publishedCheckpointId := s.publishedCheckpointId
    checkpointPublicationRequests := s.checkpointPublicationRequests
    checkpointCutoverEpochs := s.checkpointCutoverEpochs
    cutoverMembershipViews := s.cutoverMembershipViews
    servingNodeLeases := s.servingNodeLeases
    servingNodeActivations := s.servingNodeActivations
    artifactReadinessAcks := s.artifactReadinessAcks
    compactionWorkItems := s.compactionWorkItems
    notCompactedCheckpointIds := s.notCompactedCheckpointIds
    extensionWorkItems := s.extensionWorkItems
    cleanupWorkItems := s.cleanupWorkItems
    compactions := s.compactions
    checkpoints := s.checkpoints
    checkpointsNeedingExtensionWork := s.checkpointsNeedingExtensionWork
    recentFileExtensionMetadata := s.recentFileExtensionMetadata }

/-- `from_snapshot`, with the id source of the process that restores the service. -/
def fromSnapshot (mode : CompactionMode) (ids : IdInstance) (drawn : Nat)
    (snapshot : EphemeralServiceSnapshot) : EphemeralServiceImpl :=
  { mode, ids, drawn
    tables := snapshot.tables
    tableAliases := snapshot.tableAliases
    tableTemplates := snapshot.tableTemplates
    pipelines := snapshot.pipelines
    lifetimePolicies := snapshot.lifetimePolicies
    latestCommittedCheckpointId := deserializeLatestCommittedCheckpointId snapshot.latestCommittedCheckpointId
    publishedCheckpointId := snapshot.publishedCheckpointId
    checkpointPublicationRequests := snapshot.checkpointPublicationRequests
    checkpointCutoverEpochs := snapshot.checkpointCutoverEpochs
    cutoverMembershipViews := snapshot.cutoverMembershipViews
    servingNodeLeases := snapshot.servingNodeLeases
    servingNodeActivations := snapshot.servingNodeActivations
    artifactReadinessAcks := snapshot.artifactReadinessAcks
    compactionWorkItems := snapshot.compactionWorkItems
    notCompactedCheckpointIds := snapshot.notCompactedCheckpointIds
    extensionWorkItems :=
      if snapshot.extensionWorkItems.entries.isEmpty then Dict.single "es" ∅ else snapshot.extensionWorkItems
    cleanupWorkItems := snapshot.cleanupWorkItems
    compactions := snapshot.compactions
    checkpoints := snapshot.checkpoints
    checkpointsNeedingExtensionWork := snapshot.checkpointsNeedingExtensionWork
    recentFileExtensionMetadata := snapshot.recentFileExtensionMetadata }

end EphemeralServiceImpl

/-- The JSON text of snapshots, as `serde_json` writes and reads it: either may fail with a message, and
what was written is read back. -/
structure SnapshotCodec (Text : Type) where
  toText : EphemeralServiceSnapshot → Except String Text
  fromText : Text → Except String EphemeralServiceSnapshot
  fromText_toText : ∀ snapshot text, toText snapshot = .ok text → fromText text = .ok snapshot

def SnapshotCodec.plain : SnapshotCodec EphemeralServiceSnapshot where
  toText := .ok
  fromText := .ok
  fromText_toText := fun _ _ h => h.symm

/-- The calls of the write path; the others restore a service, ask it and drop it. -/
def ServiceCall.isWrite : ServiceCall → Bool
  | .getAllIcebergTables | .describeTable _ | .describeTableTemplate _ | .describePipeline _
  | .describeLifetimePolicy _ | .getLatestCommittedCheckpoint .. | .getLatestTargetCheckpoint ..
  | .getPublishedActiveCheckpoint .. | .getPublishedCheckpointRecord _ | .getCheckpoint _
  | .getCheckpointCutoverState .. | .listServingNodeActivations .. | .listArtifactReadiness .. => false
  | _ => true

/-- A call with all that the node that runs it brings along: its configuration, its id source and its
clock. -/
structure LocalCall where
  mode : CompactionMode
  ids : IdInstance
  drawn : Nat
  now : Int
  call : ServiceCall

def EphemeralServiceSnapshot.run (snapshot : EphemeralServiceSnapshot) (c : LocalCall) :
    Option (ServiceAnswer × EphemeralServiceSnapshot) :=
  ((EphemeralServiceImpl.fromSnapshot c.mode c.ids c.drawn snapshot).answer c.now c.call).map
    fun (answer, s) => (answer, s.snapshotState)

namespace SnapshotCodec

variable {Text : Type} (codec : SnapshotCodec Text) {snapshot : EphemeralServiceSnapshot} {text : Text}

/-- `read_snapshot_state` on the status of the state machine. -/
def readSnapshotState (status : Option Text) : Except String EphemeralServiceSnapshot :=
  match status with
  | some text =>
    (codec.fromText text).mapError ("Failed to deserialize replicated service state: " ++ ·)
  | none => .ok {}

/-- The first part of `write_snapshot_state`. -/
def serializeSnapshotState (snapshot : EphemeralServiceSnapshot) : Except String Text :=
  (codec.toText snapshot).mapError ("Failed to serialize replicated service state: " ++ ·)

variable {codec}

theorem serializeSnapshotState_eq_ok :
    codec.serializeSnapshotState snapshot = .ok text ↔ codec.toText snapshot = .ok text := by
  unfold serializeSnapshotState
  cases codec.toText snapshot with
  | error e => simp [Except.mapError]
  | ok t => simp [Except.mapError]

theorem readSnapshotState_stored (h : codec.serializeSnapshotState snapshot = .ok text) :
    codec.readSnapshotState (some text) = .ok snapshot := by
  unfold readSnapshotState
  dsimp only
  rw [codec.fromText_toText snapshot text (serializeSnapshotState_eq_ok.mp h)]
  rfl

end SnapshotCodec

end PowdrrEngine
