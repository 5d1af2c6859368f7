import PowdrrEngine.ServiceState
import Mathlib.Data.List.Sort
import Mathlib.Data.String.Basic

/-! Checkpoint cutover: the membership views that say which serving nodes have to activate a target
checkpoint, the acknowledgements the nodes and artifact builders send, and the promotion of a target
to the published active checkpoint. No function of this part can stop the service. -/

namespace PowdrrEngine

namespace EphemeralServiceImpl

variable (s : EphemeralServiceImpl) (now : Int) (tableName : String) (extension : Option String)

/-! ### Membership views -/

def bumpCutoverEpoch : CutoverEpoch × EphemeralServiceImpl :=
  let key := selectorGroupKey tableName extension
  let epoch := s.checkpointCutoverEpochs.getD key 0 + 1
  (epoch, { s with checkpointCutoverEpochs := s.checkpointCutoverEpochs.insert key epoch })

def clearServingNodeActivations : EphemeralServiceImpl :=
  { s with servingNodeActivations := s.servingNodeActivations.erase (selectorGroupKey tableName extension) }

def clearArtifactReadiness : EphemeralServiceImpl :=
  { s with artifactReadinessAcks := s.artifactReadinessAcks.erase (selectorGroupKey tableName extension) }

def storeCutoverMembershipView (epoch : CutoverEpoch)
    (targetCheckpointId : String) (requiredNodeIds : List String) : EphemeralServiceImpl :=
  let view := ⟨.forTarget tableName extension, epoch, targetCheckpointId, requiredNodeIds⟩
  { s with cutoverMembershipViews := s.cutoverMembershipViews.insert (selectorGroupKey tableName extension) view }

def pruneExpiredServingNodeLeases : EphemeralServiceImpl :=
  { s with servingNodeLeases := s.servingNodeLeases.retain fun _ lease => now - leaseLengthMs ≤ lease.observedAtMs }

/-- `live_serving_node_ids`, already in the order every caller sorts them into. -/
def liveServingNodeIds : List String := s.servingNodeLeases.keys.insertionSort (· ≤ ·)

variable (targetCheckpointId : String)

/-- The common tail of reconfiguring and capturing: a new epoch, a view over the given nodes, and no
activation carried over. -/
def startMembershipEpoch (requiredNodeIds : List String) : EphemeralServiceImpl :=
  let (epoch, s) := s.bumpCutoverEpoch tableName extension
  (s.storeCutoverMembershipView tableName extension epoch targetCheckpointId requiredNodeIds)
    |>.clearServingNodeActivations tableName extension

/-- `maybe_reconfigure_cutover_membership_for_target`: replace a view one of whose nodes is gone. -/
def maybeReconfigureCutoverMembershipForTarget : EphemeralServiceImpl :=
  match s.getCutoverMembershipView tableName extension with
  | none => s
  | some existingView =>
    if existingView.targetCheckpointId ≠ targetCheckpointId then s
    else
      let s := s.pruneExpiredServingNodeLeases now
      let live := s.liveServingNodeIds
      if live.isEmpty then s
      else if existingView.requiredNodeIds.all fun nodeId => nodeId ∈ live then s
      else s.startMembershipEpoch tableName extension targetCheckpointId live

/-- `capture_cutover_membership_for_target`: take a view of the live nodes for a new target. -/
def captureCutoverMembershipForTarget : EphemeralServiceImpl :=
  if (s.getCutoverMembershipView tableName extension).any fun view =>
      view.targetCheckpointId = targetCheckpointId then s
  else
    let s := s.pruneExpiredServingNodeLeases now
    s.startMembershipEpoch tableName extension targetCheckpointId s.liveServingNodeIds

/-- `backfill_cutover_membership_for_target`: a view that was captured while no node was alive gets
the nodes alive now, under its old epoch. -/
def backfillCutoverMembershipForTarget : EphemeralServiceImpl :=
  match s.getCutoverMembershipView tableName extension with
  | none => s
  | some existingView =>
    if existingView.targetCheckpointId ≠ targetCheckpointId ∨ existingView.requiredNodeIds ≠ [] then s
    else
      let s := s.pruneExpiredServingNodeLeases now
      let live := s.liveServingNodeIds
      if live.isEmpty then s
      else s.storeCutoverMembershipView tableName extension existingView.epoch targetCheckpointId live

/-! ### Publication -/

/-- The latest checkpoint is not the active one. -/
def publishedCheckpointNeedsActivation : Bool :=
  match s.getLatestMaterializedCheckpointSync tableName extension with
  | some targetCheckpointId =>
    s.getPublishedCheckpointSync .active tableName extension ≠ some targetCheckpointId
  | none => false

/-- `checkpoint_publication_still_pending`: work of `"es"` is left, or a target is not active. -/
def checkpointPublicationStillPending (tableName : String) : Bool :=
  (((s.extensionWorkItems.lookup "es").bind fun items => items.lookup tableName).any
      fun item => item.workItem.hasWork) ||
    decide (extensionWorkKey tableName "es" ∈ s.checkpointsNeedingExtensionWork) ||
    s.publishedCheckpointNeedsActivation tableName none ||
    s.publishedCheckpointNeedsActivation tableName (some "es")

/-- Whether the target is new; then the readiness of artifacts is forgotten. -/
def advanceTargetCheckpoint : Bool × EphemeralServiceImpl :=
  match s.getLatestMaterializedCheckpointSync tableName extension with
  | none => (false, s)
  | some checkpointId =>
    let previousTarget := (s.getCutoverMembershipView tableName extension).map (·.targetCheckpointId)
    let s := if previousTarget ≠ some checkpointId then s.clearArtifactReadiness tableName extension
      else s
    (previousTarget ≠ some checkpointId, s.captureCutoverMembershipForTarget now tableName extension checkpointId)

/-- `activation_matches_target`: the view is brought up to date first, and an empty view never
matches. -/
def activationMatchesTarget : Bool × EphemeralServiceImpl :=
  let s := s.backfillCutoverMembershipForTarget now tableName extension targetCheckpointId
  let s := s.maybeReconfigureCutoverMembershipForTarget now tableName extension targetCheckpointId
  match s.getCutoverMembershipView tableName extension with
  | none => (false, s)
  | some view =>
    if view.targetCheckpointId ≠ targetCheckpointId ∨ view.requiredNodeIds = [] then (false, s)
    else
      match s.servingNodeActivations.lookup (selectorGroupKey tableName extension) with
      | none => (false, s)
      | some acks =>
        (view.requiredNodeIds.all fun nodeId => (acks.lookup nodeId).any fun ack =>
          ack.checkpointId = targetCheckpointId && ack.epoch = view.epoch, s)

/-- `readiness_matches_target`: every required artifact has an ack for the target, of any epoch. -/
def readinessMatchesTarget : Bool :=
  match s.artifactReadinessAcks.lookup (selectorGroupKey tableName extension) with
  | none => false
  | some acks =>
    (requiredArtifactClasses extension).all fun artifactClass =>
      (acks.lookup artifactClass).any fun ack => ack.checkpointId = targetCheckpointId

/-- The target becomes active once all artifacts and nodes are ready for it. -/
def promoteActiveCheckpointIfReady : Bool × EphemeralServiceImpl :=
  match s.getLatestMaterializedCheckpointSync tableName extension with
  | none => (false, s)
  | some targetCheckpointId =>
    if s.getPublishedCheckpointSync .active tableName extension = some targetCheckpointId then (false, s)
    else if s.readinessMatchesTarget tableName extension targetCheckpointId = false then (false, s)
    else
      match s.activationMatchesTarget now tableName extension targetCheckpointId with
      | (false, s) => (false, s)
      | (true, s) => (true, s.setPublishedCheckpoint .active tableName extension targetCheckpointId)

/-- The body of the loop of `update_all_checkpoints` for one pending request. -/
def updateCheckpointsOf (tableName : String) : Bool × EphemeralServiceImpl :=
  let (w1, s) := s.advanceTargetCheckpoint now tableName none
  let (w2, s) := s.promoteActiveCheckpointIfReady now tableName none
  let (w3, s) := s.advanceTargetCheckpoint now tableName (some "es")
  let (w4, s) := s.promoteActiveCheckpointIfReady now tableName (some "es")
  let key := checkpointPublicationRequestKey defaultMetadataNamespace tableName
  let s := if s.checkpointPublicationStillPending tableName then s
    else { s with checkpointPublicationRequests := s.checkpointPublicationRequests.erase key }
  (w1 || w2 || w3 || w4, s)

/-- `update_all_checkpoints`: advance and promote every table with a pending publication request. -/
def updateAllCheckpoints : Bool × EphemeralServiceImpl :=
  s.checkpointPublicationRequests.values.foldl (fun (workDone, s) request =>
    let (work, s) := s.updateCheckpointsOf now request.tableName
    (workDone || work, s)) (false, s)

/-! ### Requests of the coordination interface -/

def planCheckpointCutover (request : CheckpointCutoverRequest) : EphemeralServiceImpl :=
  let tableName := request.selector.tableName
  let extension := request.selector.extension
  if s.getPublishedCheckpointSync .target tableName extension ≠ some request.targetCheckpointId then
    (s.setPublishedCheckpoint .target tableName extension request.targetCheckpointId)
      |>.captureCutoverMembershipForTarget now tableName extension request.targetCheckpointId
  else s

/-- The view `get_checkpoint_cutover_state` leaves behind: captured for the latest committed
checkpoint, and backfilled. -/
def captureForCutoverState : EphemeralServiceImpl :=
  match s.getLatestMaterializedCheckpointSync tableName extension with
  | none => s
  | some targetCheckpointId =>
    (s.captureCutoverMembershipForTarget now tableName extension targetCheckpointId)
      |>.backfillCutoverMembershipForTarget now tableName extension targetCheckpointId

/-- `get_checkpoint_cutover_state`. Despite its name it changes the service: the membership view of
the latest checkpoint is captured on the way. -/
def getCheckpointCutoverState : CheckpointCutoverState × EphemeralServiceImpl :=
  let targetCheckpointId := s.getLatestMaterializedCheckpointSync tableName extension
  let s := s.captureForCutoverState now tableName extension
  let viewEpoch := ((s.getCutoverMembershipView tableName extension).filter fun view =>
    some view.targetCheckpointId = targetCheckpointId).map (·.epoch)
  ({ selector := .forTarget tableName extension
     epoch := viewEpoch.getD (s.checkpointCutoverEpochs.getD (selectorGroupKey tableName extension) 0)
     activeCheckpointId := s.getPublishedCheckpointSync .active tableName extension
     targetCheckpointId }, s)

def heartbeatServingNode (lease : ServingNodeLease) : EphemeralServiceImpl :=
  let s := s.pruneExpiredServingNodeLeases now
  { s with servingNodeLeases := s.servingNodeLeases.insert lease.nodeId lease }

/-- `record_serving_node_activation`: the ack is kept under the key of its selector, one for each
node. -/
def recordServingNodeActivation (ack : ServingNodeActivationAck) : EphemeralServiceImpl :=
  let key := selectorGroupKey ack.selector.tableName ack.selector.extension
  let acks := (s.servingNodeActivations.getD key ∅).insert ack.nodeId ack
  { s with servingNodeActivations := s.servingNodeActivations.insert key acks }

/-- `record_artifact_readiness`: the ack is kept under the key of its selector, one for each class. -/
def recordArtifactReadiness (ack : ArtifactReadinessAck) : EphemeralServiceImpl :=
  let key := selectorGroupKey ack.selector.tableName ack.selector.extension
  let acks := (s.artifactReadinessAcks.getD key ∅).insert ack.artifactClass ack
  { s with artifactReadinessAcks := s.artifactReadinessAcks.insert key acks }

def listServingNodeActivations : List ServingNodeActivationAck :=
  ((s.servingNodeActivations.lookup (selectorGroupKey tableName extension)).map Dict.values).getD []

def listArtifactReadiness : List ArtifactReadinessAck :=
  ((s.artifactReadinessAcks.lookup (selectorGroupKey tableName extension)).map Dict.values).getD []

def getPublishedCheckpointRecord (selector : PublishedCheckpointSelector) : Option PublishedCheckpointRecord :=
  (s.getPublishedCheckpointSync selector.role selector.tableName selector.extension).map
    fun checkpointId => ⟨selector, checkpointId⟩

end EphemeralServiceImpl

end PowdrrEngine
