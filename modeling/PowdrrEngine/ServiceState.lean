import PowdrrEngine.LibText
import PowdrrEngine.ContractCheckpoint
import PowdrrEngine.ContractTables
import Mathlib.Order.Monotone.Basic

/-! The state of the metadata service: everything `EphemeralServiceImpl` keeps between two calls, the
string keys under which it keeps it, and the lookups that do not change it. Calls run one after the
other, since the service is an actor; the clock reading of a call is an argument of the functions
that ask for the time, and checkpoint and work item ids come from a strictly increasing source. -/

namespace PowdrrEngine

/-! ### Coordination records -/

inductive PublishedCheckpointRole where
  | active
  | target
  deriving DecidableEq

structure PublishedCheckpointSelector where
  tableName : String
  extension : Option String
  role : PublishedCheckpointRole
  deriving DecidableEq

def PublishedCheckpointSelector.forTarget (tableName : String) (extension : Option String) :
    PublishedCheckpointSelector := ⟨tableName, extension, .target⟩

structure PublishedCheckpointRecord where
  selector : PublishedCheckpointSelector
  checkpointId : String
  deriving DecidableEq

/-- The number of times a selector's membership view was captured anew. -/
abbrev CutoverEpoch := Nat

structure CheckpointCutoverState where
  selector : PublishedCheckpointSelector
  epoch : CutoverEpoch
  activeCheckpointId : Option String
  targetCheckpointId : Option String
  deriving DecidableEq

structure ServingNodeLease where
  nodeId : String
  membershipEpoch : CutoverEpoch
  observedAtMs : Int
  deriving DecidableEq

structure ServingNodeActivationAck where
  selector : PublishedCheckpointSelector
  nodeId : String
  epoch : CutoverEpoch
  checkpointId : String
  activatedAtMs : Int
  deriving DecidableEq

structure CutoverMembershipView where
  selector : PublishedCheckpointSelector
  epoch : CutoverEpoch
  targetCheckpointId : String
  requiredNodeIds : List String
  deriving DecidableEq

structure CheckpointCutoverRequest where
  selector : PublishedCheckpointSelector
  targetCheckpointId : String
  deriving DecidableEq

structure CheckpointUpdateRequest where
  tableName : String
  deriving DecidableEq

inductive ArtifactClass where
  | snapshotLookupMmap
  | snapshotExactLookupMmap
  | searchProjection
  | statsManifest
  | custom (name : String)
  deriving DecidableEq

structure ArtifactReadinessAck where
  selector : PublishedCheckpointSelector
  checkpointId : String
  epoch : CutoverEpoch
  artifactClass : ArtifactClass
  producerId : String
  readyAtMs : Int
  deriving DecidableEq

/-- The artifacts that have to be ready before a checkpoint of the extension may become active. -/
def requiredArtifactClasses : Option String → List ArtifactClass
  | none => [.snapshotLookupMmap, .snapshotExactLookupMmap]
  | some extension => if extension = "es" then [.searchProjection] else [.custom extension]

/-! ### Work item trackers, configuration, ids -/

structure ExtensionWorkItemTracker where
  workItem : ExtensionWorkItem
  leaseExpiresAtMs : Option Int
  deriving DecidableEq

structure CompactionWorkItemTracker where
  workItem : CompactionWorkItem
  leaseExpiresAtMs : Option Int
  deriving DecidableEq

structure CleanupWorkItemTracker where
  workItem : CleanupWorkItem
  leaseExpiresAtMs : Option Int
  deriving DecidableEq

inductive CompactionMode where
  | async (threshold : Option Nat)
  | external (address : String)
  | disabled
  deriving DecidableEq

/-- The number of speedboat files from which a checkpoint is compacted. -/
def CompactionMode.threshold : CompactionMode → Nat
  | .async threshold => threshold.getD 100
  | _ => 100

/-- The process-wide id generator: ids increase, so no id is drawn twice. -/
structure IdInstance where
  seq : Nat → Nat
  strictMono : StrictMono seq

/-- The generator that hands out 1, 2, 3, and so on. -/
def IdInstance.counting : IdInstance := ⟨Nat.succ, fun _ _ h => Nat.succ_lt_succ h⟩

/-- `IdInstance::next_id().to_string()` for the id drawn after `drawn` others. -/
def IdInstance.text (ids : IdInstance) (drawn : Nat) : String := toString (ids.seq drawn)

theorem IdInstance.text_injective (ids : IdInstance) : Function.Injective ids.text := by
  intro i j h
  exact ids.strictMono.injective (Text.toString_nat_injective h)

/-! ### The service -/

/-- The metadata service between two calls. `mode` and the id generator belong to the process, the
rest is what a snapshot of the service carries. -/
structure EphemeralServiceImpl where
  mode : CompactionMode
  ids : IdInstance
  drawn : Nat := 0
  tables : Dict String TableDescription := ∅
  tableAliases : Dict String String := ∅
  tableTemplates : Dict String Value := ∅
  pipelines : Dict String Value := ∅
  lifetimePolicies : Dict String Value := ∅
  latestCommittedCheckpointId : Dict (Option String) (Dict String String) := ∅
  publishedCheckpointId : Dict String String := ∅
  checkpointPublicationRequests : Dict String CheckpointUpdateRequest := ∅
  checkpointCutoverEpochs : Dict String CutoverEpoch := ∅
  cutoverMembershipViews : Dict String CutoverMembershipView := ∅
  servingNodeLeases : Dict String ServingNodeLease := ∅
  servingNodeActivations : Dict String (Dict String ServingNodeActivationAck) := ∅
  artifactReadinessAcks : Dict String (Dict ArtifactClass ArtifactReadinessAck) := ∅
  compactionWorkItems : Dict String CompactionWorkItemTracker := ∅
  notCompactedCheckpointIds : Dict String (List String) := ∅
  extensionWorkItems : Dict String (Dict String ExtensionWorkItemTracker) := Dict.single "es" ∅
  cleanupWorkItems : List CleanupWorkItemTracker := []
  compactions : Dict String (String × CompactionCommit) := ∅
  checkpoints : Dict String TableMetadataCheckpoint := ∅
  checkpointsNeedingExtensionWork : Dict String (List String) := ∅
  recentFileExtensionMetadata : Dict String (List ExtensionFile) := ∅

namespace EphemeralServiceImpl

/-- A service that has not been called yet. -/
def new (mode : CompactionMode) (ids : IdInstance) : EphemeralServiceImpl := { mode, ids }

def leaseLengthMs : Int := 60 * 1000

def workClaimLeaseLengthMs : Int := 60 * 1000

def defaultMetadataNamespace : String := "__powdrr__"

/-! ### Keys -/

def roleKey : PublishedCheckpointRole → String
  | .active => "active"
  | .target => "target"

def extensionStorageKey (extension : Option String) : String := extension.getD ""

def extensionFromStorageKey (key : String) : Option String := if key = "" then none else some key

theorem extensionFromStorageKey_storageKey {extension : Option String} (h : extension ≠ some "") :
    extensionFromStorageKey (extensionStorageKey extension) = extension := by
  cases extension with
  | none => rfl
  | some e =>
    have he : e ≠ "" := fun heq => h (heq ▸ rfl)
    simp [extensionFromStorageKey, extensionStorageKey, he]

/-- `"{role}|{extension}|{table}"`. -/
def selectorStorageKey (role : PublishedCheckpointRole) (tableName : String) (extension : Option String) : String :=
  roleKey role ++ "|" ++ extensionStorageKey extension ++ "|" ++ tableName

/-- `"{extension}|{table}"`. -/
def selectorGroupKey (tableName : String) (extension : Option String) : String :=
  extensionStorageKey extension ++ "|" ++ tableName

def checkpointPublicationRequestKey (orgId tableName : String) : String := orgId ++ "|" ++ tableName

/-- `"{table}_{checkpoint}"`, the key of a stored checkpoint. -/
def checkpointKey (tableName checkpointId : String) : String := tableName ++ "_" ++ checkpointId

/-- `"{table}_{extension}"`, the key of the checkpoints that wait for an extension. -/
def extensionWorkKey (tableName extension : String) : String := tableName ++ "_" ++ extension

/-- `"{table}_{extension}_{file}"`. -/
def recentFileKey (tableName extension fileName : String) : String := tableName ++ "_" ++ extension ++ "_" ++ fileName

/-! ### Lookups -/

variable (s : EphemeralServiceImpl)

def realTableName (tableName : String) : String := s.tableAliases.getD tableName tableName

/-- `get_latest_materialized_checkpoint_sync`: the newest committed checkpoint of a table for an
extension, under the name behind the alias. -/
def getLatestMaterializedCheckpointSync (tableName : String) (extension : Option String) : Option String :=
  (s.latestCommittedCheckpointId.lookup extension).bind fun c => c.lookup (s.realTableName tableName)

def getPublishedCheckpointSync (role : PublishedCheckpointRole) (tableName : String)
    (extension : Option String) : Option String :=
  s.publishedCheckpointId.lookup (selectorStorageKey role tableName extension)

def getCheckpointSync (tableName checkpointId : String) : Option TableMetadataCheckpoint :=
  s.checkpoints.lookup (checkpointKey tableName checkpointId)

def getCutoverMembershipView (tableName : String) (extension : Option String) : Option CutoverMembershipView :=
  s.cutoverMembershipViews.lookup (selectorGroupKey tableName extension)

/-- A work item may be claimed when no lease on it is running. -/
def leaseIsAvailable (now : Int) (leaseExpiresAtMs : Option Int) : Bool :=
  (leaseExpiresAtMs.map fun expiresAtMs => decide (expiresAtMs ≤ now)).getD true

def nextId : String × EphemeralServiceImpl := (s.ids.text s.drawn, { s with drawn := s.drawn + 1 })

def setPublishedCheckpoint (role : PublishedCheckpointRole) (tableName : String)
    (extension : Option String) (checkpointId : String) : EphemeralServiceImpl :=
  { s with publishedCheckpointId :=
      s.publishedCheckpointId.insert (selectorStorageKey role tableName extension) checkpointId }

/-- `set_latest_committed_checkpoint_id`: record a committed checkpoint under the name as given. -/
def setLatestCommittedCheckpointId (extension : Option String) (tableName checkpointId : String) :
    EphemeralServiceImpl :=
  let checkpoints := (s.latestCommittedCheckpointId.getD extension ∅).insert tableName checkpointId
  { s with latestCommittedCheckpointId := s.latestCommittedCheckpointId.insert extension checkpoints }

/-- `set_latest_committed_checkpoint`: the same under the name behind an alias. -/
def setLatestCommittedCheckpoint (tableName : String) (extension : Option String)
    (checkpointId : String) : EphemeralServiceImpl :=
  s.setLatestCommittedCheckpointId extension (s.realTableName tableName) checkpointId

def queuePublicationRequest (orgId tableName : String) : EphemeralServiceImpl :=
  let key := checkpointPublicationRequestKey orgId tableName
  { s with checkpointPublicationRequests := s.checkpointPublicationRequests.insert key ⟨tableName⟩ }

end EphemeralServiceImpl

end PowdrrEngine
