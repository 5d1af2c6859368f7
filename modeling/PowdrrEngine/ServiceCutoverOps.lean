import PowdrrEngine.ServiceCalls
import Mathlib.Logic.Relation

/-! Coordination requests as sequences of elementary changes. However a membership view is captured,
reconfigured or backfilled, and whichever call does it, the records change in one of a few ways; each
is named here with the condition under which it happens. What holds of every elementary change holds
of every coordination request. -/

namespace PowdrrEngine

namespace EphemeralServiceImpl

def dropPublicationRequest (s : EphemeralServiceImpl) (tableName : String) : EphemeralServiceImpl :=
  let key := checkpointPublicationRequestKey defaultMetadataNamespace tableName
  { s with checkpointPublicationRequests := s.checkpointPublicationRequests.erase key }

theorem exists_updateCheckpointsOf (s : EphemeralServiceImpl) (now : Int) (tableName : String)
    {P : EphemeralServiceImpl → Prop}
    (hadvance : ∀ m e, e = none ∨ e = some "es" → P m → P (m.advanceTargetCheckpoint now tableName e).2)
    (hpromote : ∀ m e, e = none ∨ e = some "es" → P m →
      P (m.promoteActiveCheckpointIfReady now tableName e).2) (h : P s) :
    ∃ mid, P mid ∧ (s.updateCheckpointsOf now tableName).2 =
      if mid.checkpointPublicationStillPending tableName then mid
      else mid.dropPublicationRequest tableName := by
  have h1 := hadvance s none (Or.inl rfl) h
  have h2 := hpromote _ none (Or.inl rfl) h1
  have h3 := hadvance _ (some "es") (Or.inr rfl) h2
  exact ⟨_, hpromote _ (some "es") (Or.inr rfl) h3, rfl⟩

/-- The elementary changes to the membership views and acknowledgements at a time, on the selectors
`touched`. -/
inductive ViewOp (now : Int) (touched : String → Option String → Prop) :
    EphemeralServiceImpl → EphemeralServiceImpl → Prop
  | prune (s) : ViewOp now touched s (s.pruneExpiredServingNodeLeases now)
  | clearReadiness {s tableName extension target} : touched tableName extension →
      s.getLatestMaterializedCheckpointSync tableName extension = some target →
      (s.getCutoverMembershipView tableName extension).map (·.targetCheckpointId) ≠ some target →
      ViewOp now touched s (s.clearArtifactReadiness tableName extension)
  | retarget {s tableName extension target} : touched tableName extension →
      (s.getCutoverMembershipView tableName extension).map (·.targetCheckpointId) ≠ some target →
      ViewOp now touched s (s.startMembershipEpoch tableName extension target s.liveServingNodeIds)
  | reconfigure {s tableName extension view} : touched tableName extension →
      s.getCutoverMembershipView tableName extension = some view → s.liveServingNodeIds ≠ [] →
      ¬ view.requiredNodeIds ⊆ s.liveServingNodeIds →
      ViewOp now touched s
        (s.startMembershipEpoch tableName extension view.targetCheckpointId s.liveServingNodeIds)
  | backfill {s tableName extension view} : touched tableName extension →
      s.getCutoverMembershipView tableName extension = some view → view.requiredNodeIds = [] →
      s.liveServingNodeIds ≠ [] →
      ViewOp now touched s (s.storeCutoverMembershipView tableName extension view.epoch
        view.targetCheckpointId s.liveServingNodeIds)

/-- The elementary changes a coordination request makes. -/
inductive CutoverOp (c : TimedCall) (touched : String → Option String → Prop) :
    EphemeralServiceImpl → EphemeralServiceImpl → Prop
  | view {s s'} : ViewOp c.now touched s s' → CutoverOp c touched s s'
  | planTarget {s tableName extension} (target) : touched tableName extension →
      CutoverOp c touched s (s.setPublishedCheckpoint .target tableName extension target)
  | promote {s tableName extension target} : c.call = .updateAllCheckpoints → touched tableName extension →
      extension ∈ [none, some "es"] →
      s.getLatestMaterializedCheckpointSync tableName extension = some target →
      CutoverOp c touched s (s.setPublishedCheckpoint .active tableName extension target)
  | dropRequest {s tableName} : s.checkpointPublicationStillPending tableName = false →
      CutoverOp c touched s (s.dropPublicationRequest tableName)

abbrev Selects (tableName : String) (extension : Option String) (t : String) (e : Option String) : Prop :=
  t = tableName ∧ e = extension

/-- Any number of elementary changes to views. -/
abbrev ViewOps (now : Int) (touched : String → Option String → Prop) := Relation.ReflTransGen (ViewOp now touched)

/-- Any number of elementary changes. -/
abbrev CutoverOps (c : TimedCall) (touched : String → Option String → Prop) :=
  Relation.ReflTransGen (CutoverOp c touched)

variable {touched : String → Option String → Prop} {s s' : EphemeralServiceImpl} {c : TimedCall}

theorem ViewOps.cutoverOps (h : ViewOps c.now touched s s') : CutoverOps c touched s s' :=
  Relation.ReflTransGen.mono (fun _ _ hop => CutoverOp.view hop) _ _ h

section

variable (s) (now : Int) {tableName : String} {extension : Option String} (htouched : touched tableName extension)

theorem viewOps_prune : ViewOps now touched s (s.pruneExpiredServingNodeLeases now) := .single (.prune s)

include htouched

variable (target : String)

theorem viewOps_capture :
    ViewOps now touched s (s.captureCutoverMembershipForTarget now tableName extension target) := by
  unfold captureCutoverMembershipForTarget
  split
  · exact .refl
  · rename_i hother
    refine (viewOps_prune s now).tail (.retarget htouched fun hsame => hother ?_)
    obtain ⟨view, hview, htarget⟩ := Option.map_eq_some_iff.mp hsame
    exact (Option.any_eq_true _ _).mpr ⟨view, hview, decide_eq_true htarget⟩

theorem viewOps_maybeReconfigure : ViewOps now touched s
      (s.maybeReconfigureCutoverMembershipForTarget now tableName extension target) := by
  unfold maybeReconfigureCutoverMembershipForTarget
  split
  · exact .refl
  rename_i view hview
  split
  · exact .refl
  rename_i hfor
  obtain rfl := not_not.mp hfor
  dsimp only
  split
  · exact viewOps_prune s now
  rename_i hlive
  split
  · exact viewOps_prune s now
  · rename_i hgone
    refine (viewOps_prune s now).tail (.reconfigure htouched hview ?_ ?_)
    · exact fun hnil => hlive (List.isEmpty_iff.mpr hnil)
    · exact fun hsub => hgone (List.all_eq_true.mpr fun nodeId hmem => decide_eq_true (hsub hmem))

theorem viewOps_backfill :
    ViewOps now touched s (s.backfillCutoverMembershipForTarget now tableName extension target) := by
  unfold backfillCutoverMembershipForTarget
  split
  · exact .refl
  rename_i view hview
  split
  · exact .refl
  rename_i hfor
  obtain ⟨htarget, hnodes⟩ := not_or.mp hfor
  obtain rfl := not_not.mp htarget
  dsimp only
  split
  · exact viewOps_prune s now
  · rename_i hlive
    refine (viewOps_prune s now).tail (.backfill htouched hview (not_not.mp hnodes) ?_)
    exact fun hnil => hlive (List.isEmpty_iff.mpr hnil)

theorem viewOps_advanceTarget : ViewOps now touched s (s.advanceTargetCheckpoint now tableName extension).2 := by
  unfold advanceTargetCheckpoint
  split
  · exact .refl
  rename_i target htarget
  refine Relation.ReflTransGen.trans ?_ (viewOps_capture _ now htouched target)
  split
  · rename_i hother
    exact .single (.clearReadiness htouched htarget hother)
  · exact .refl

theorem viewOps_activationMatchesTarget :
    ViewOps now touched s (s.activationMatchesTarget now tableName extension target).2 := by
  have hview := (viewOps_backfill s now htouched target).trans (viewOps_maybeReconfigure _ now htouched target)
  unfold activationMatchesTarget
  dsimp only
  split
  · exact hview
  · split
    · exact hview
    · split <;> exact hview

theorem viewOps_captureForCutoverState : ViewOps now touched s (s.captureForCutoverState now tableName extension) := by
  unfold captureForCutoverState
  split
  · exact .refl
  · exact (viewOps_capture s now htouched _).trans (viewOps_backfill _ now htouched _)

end

/-! ### What no coordination request changes -/

/-- Only coordination records and queued publication requests differ. -/
def CoordinationOnly (s s' : EphemeralServiceImpl) : Prop :=
  s' = { s with
    publishedCheckpointId := s'.publishedCheckpointId
    checkpointPublicationRequests := s'.checkpointPublicationRequests
    checkpointCutoverEpochs := s'.checkpointCutoverEpochs
    cutoverMembershipViews := s'.cutoverMembershipViews
    servingNodeLeases := s'.servingNodeLeases
    servingNodeActivations := s'.servingNodeActivations
    artifactReadinessAcks := s'.artifactReadinessAcks }

theorem CutoverOp.coordinationOnly (h : CutoverOp c touched s s') : CoordinationOnly s s' := by
  cases h with
  | view hview => cases hview <;> rfl
  | _ => rfl

theorem CutoverOps.coordinationOnly (h : CutoverOps c touched s s') : CoordinationOnly s s' := by
  induction h with
  | refl => rfl
  | tail _ hop ih =>
    have hlast := hop.coordinationOnly
    rw [ih] at hlast
    exact hlast

theorem CoordinationOnly.getLatest (h : CoordinationOnly s s') (tableName : String) (extension : Option String) :
    s'.getLatestMaterializedCheckpointSync tableName extension =
      s.getLatestMaterializedCheckpointSync tableName extension := by
  rw [h]
  rfl

/-! ### Updates -/

theorem CutoverOps.mono {more : String → Option String → Prop} (h : CutoverOps c touched s s')
    (hsub : ∀ t e, touched t e → more t e) : CutoverOps c more s s' := by
  refine Relation.ReflTransGen.mono (fun _ _ hop => ?_) _ _ h
  cases hop with
  | view hview =>
    refine .view ?_
    cases hview with
    | prune => exact .prune _
    | clearReadiness ht hlatest hother => exact .clearReadiness (hsub _ _ ht) hlatest hother
    | retarget ht hother => exact .retarget (hsub _ _ ht) hother
    | reconfigure ht hview hlive hgone => exact .reconfigure (hsub _ _ ht) hview hlive hgone
    | backfill ht hview hnodes hlive => exact .backfill (hsub _ _ ht) hview hnodes hlive
  | planTarget target ht => exact .planTarget target (hsub _ _ ht)
  | promote hcall ht he hlatest => exact .promote hcall (hsub _ _ ht) he hlatest
  | dropRequest hpending => exact .dropRequest hpending

section

variable (hcall : c.call = .updateAllCheckpoints)

include hcall

theorem cutoverOps_promote (s : EphemeralServiceImpl)
    {tableName : String} {extension : Option String} (ht : touched tableName extension)
    (he : extension ∈ [none, some "es"]) :
    CutoverOps c touched s (s.promoteActiveCheckpointIfReady c.now tableName extension).2 := by
  unfold promoteActiveCheckpointIfReady
  split
  · exact .refl
  rename_i target htarget
  split
  · exact .refl
  split
  · exact .refl
  have hview := (viewOps_activationMatchesTarget s c.now ht target).cutoverOps (c := c)
  split
  · rename_i t heq
    rw [heq] at hview
    exact hview
  · rename_i t heq
    rw [heq] at hview
    exact hview.tail (.promote hcall ht he ((hview.coordinationOnly.getLatest _ _).trans htarget))

/-- The selectors that an update of a table works on. -/
def UpdateTouches (tableName : String) (t : String) (e : Option String) : Prop :=
  t = tableName ∧ (e = none ∨ e = some "es")

theorem cutoverOps_updateCheckpointsOf (s : EphemeralServiceImpl) (tableName : String) :
    CutoverOps c (UpdateTouches tableName) s (s.updateCheckpointsOf c.now tableName).2 := by
  obtain ⟨mid, h, heq⟩ := s.exists_updateCheckpointsOf c.now tableName (P := CutoverOps c (UpdateTouches tableName) s)
    (fun m e he h => h.trans (viewOps_advanceTarget m c.now ⟨rfl, he⟩).cutoverOps)
    (fun m e he h => h.trans (cutoverOps_promote hcall m ⟨rfl, he⟩ (List.mem_pair.mpr he))) .refl
  rw [heq]
  split
  · exact h
  · rename_i hpending
    exact h.tail (.dropRequest (Bool.eq_false_iff.mpr hpending))

theorem cutoverOps_updateAllCheckpoints (s : EphemeralServiceImpl) :
    CutoverOps c (fun t e => ∃ r ∈ s.checkpointPublicationRequests.values, UpdateTouches r.tableName t e) s
      (s.updateAllCheckpoints c.now).2 := by
  refine List.foldlRecOn _ _ (motive := fun p : Bool × EphemeralServiceImpl => CutoverOps c _ s p.2) .refl
    fun p h request hmem => ?_
  exact h.trans (CutoverOps.mono (cutoverOps_updateCheckpointsOf hcall p.2 request.tableName)
    fun t e ht => ⟨request, hmem, ht⟩)

end

/-- The selectors a coordination request works on. -/
def touchedBy (s : EphemeralServiceImpl) : ServiceCall → String → Option String → Prop
  | .updateAllCheckpoints => fun t e =>
    ∃ r ∈ s.checkpointPublicationRequests.values, UpdateTouches r.tableName t e
  | .planCheckpointCutover request => Selects request.selector.tableName request.selector.extension
  | .getCheckpointCutoverState tableName extension => Selects tableName extension
  | _ => fun _ _ => False

/-- What a coordination request does: elementary changes, or one more lease or acknowledgement. -/
inductive CoordinationStep (s : EphemeralServiceImpl) (c : TimedCall) (s' : EphemeralServiceImpl) : Prop
  | ops : CutoverOps c (s.touchedBy c.call) s s' → CoordinationStep s c s'
  | heartbeat {lease} : c.call = .heartbeatServingNode lease →
      s' = s.heartbeatServingNode c.now lease → CoordinationStep s c s'
  | activation {ack} : c.call = .recordServingNodeActivation ack →
      s' = s.recordServingNodeActivation ack → CoordinationStep s c s'
  | readiness {ack} : c.call = .recordArtifactReadiness ack →
      s' = s.recordArtifactReadiness ack → CoordinationStep s c s'

/-- **What a coordination request does.** -/
theorem step_coordinationStep (hcall : c.call.isCoordination = true)
    (h : s.step c = some s') : CoordinationStep s c s' := by
  obtain ⟨now, call⟩ := c
  cases call with
  | updateAllCheckpoints =>
    cases h
    exact .ops (cutoverOps_updateAllCheckpoints rfl s)
  | planCheckpointCutover request =>
    cases h
    refine .ops ?_
    dsimp only [touchedBy, planCheckpointCutover]
    split
    · exact Relation.ReflTransGen.head (.planTarget _ ⟨rfl, rfl⟩) (viewOps_capture _ now ⟨rfl, rfl⟩ _).cutoverOps
    · exact .refl
  | getCheckpointCutoverState tableName extension =>
    cases h
    exact .ops (viewOps_captureForCutoverState s now ⟨rfl, rfl⟩).cutoverOps
  | heartbeatServingNode lease =>
    cases h
    exact .heartbeat rfl rfl
  | recordServingNodeActivation ack =>
    cases h
    exact .activation rfl rfl
  | recordArtifactReadiness ack =>
    cases h
    exact .readiness rfl rfl
  | _ => cases hcall

theorem CoordinationStep.coordinationOnly (h : CoordinationStep s c s') : CoordinationOnly s s' := by
  cases h with
  | ops hops => exact hops.coordinationOnly
  | heartbeat _ heq | activation _ heq | readiness _ heq =>
    rw [heq]
    rfl

end EphemeralServiceImpl

end PowdrrEngine
