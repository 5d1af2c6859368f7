import PowdrrEngine.SafetyPromotion

/-! The epochs of cutovers. A membership view is captured anew, with a new epoch and no acknowledgement
carried over, whenever its target changes or one of its nodes is gone. There is one exception: a view
that was captured while no node was alive gets its first nodes under the epoch it has, and an
acknowledgement of that epoch counts whenever it was recorded. -/

namespace PowdrrEngine

open AList

/-- A view goes on: same epoch and target, and the same nodes unless it had none. -/
structure CutoverMembershipView.Continues (view view' : CutoverMembershipView) : Prop where
  epoch : view'.epoch = view.epoch
  target : view'.targetCheckpointId = view.targetCheckpointId
  nodes : view'.requiredNodeIds = view.requiredNodeIds ∨ view.requiredNodeIds = []

theorem CutoverMembershipView.Continues.refl (view : CutoverMembershipView) : view.Continues view :=
  ⟨rfl, rfl, Or.inl rfl⟩

theorem CutoverMembershipView.Continues.trans {view view' view'' : CutoverMembershipView}
    (h : view.Continues view') (h' : view'.Continues view'') : view.Continues view'' := by
  refine ⟨h'.epoch.trans h.epoch, h'.target.trans h.target, ?_⟩
  rcases h.nodes with hsame | hnil
  · rw [← hsame]
    exact h'.nodes
  · exact Or.inr hnil

namespace EphemeralServiceImpl

variable {s s' s'' : EphemeralServiceImpl} {tableName : String} {extension : Option String}
  {touched : String → Option String → Prop} {c : TimedCall}

def cutoverEpoch (s : EphemeralServiceImpl) (tableName : String) (extension : Option String) : CutoverEpoch :=
  s.checkpointCutoverEpochs.getD (selectorGroupKey tableName extension) 0

/-- From one state to a later one: the epoch of a group does not fall; while it stays, the view goes on;
and an acknowledgement that is there was recorded in between, or was there before and the epoch is the
same. -/
structure EpochMove (tableName : String) (extension : Option String)
    (recorded : ServingNodeActivationAck → Prop) (s s' : EphemeralServiceImpl) : Prop where
  le : s.cutoverEpoch tableName extension ≤ s'.cutoverEpoch tableName extension
  view : s'.cutoverEpoch tableName extension = s.cutoverEpoch tableName extension →
    ∀ view', s'.getCutoverMembershipView tableName extension = some view' →
      ∃ view, s.getCutoverMembershipView tableName extension = some view ∧ view.Continues view'
  acks : ∀ nodeId ack, s'.activationAck tableName extension nodeId = some ack →
    recorded ack ∨ s'.cutoverEpoch tableName extension = s.cutoverEpoch tableName extension ∧
      s.activationAck tableName extension nodeId = some ack

namespace EpochMove

variable {recorded recorded' : ServingNodeActivationAck → Prop}

theorem of_eq (hepoch : s'.cutoverEpoch tableName extension = s.cutoverEpoch tableName extension)
    (hview : s'.getCutoverMembershipView tableName extension = s.getCutoverMembershipView tableName extension)
    (hacks : s'.activationAck tableName extension = s.activationAck tableName extension) :
    EpochMove tableName extension recorded s s' :=
  ⟨hepoch.ge, fun _ view' h => ⟨view', hview ▸ h, .refl view'⟩, fun _ _ h => Or.inr ⟨hepoch, hacks ▸ h⟩⟩

theorem refl (s : EphemeralServiceImpl) : EpochMove tableName extension recorded s s := .of_eq rfl rfl rfl

theorem mono (h : EpochMove tableName extension recorded s s')
    (hmore : ∀ ack, recorded ack → recorded' ack) : EpochMove tableName extension recorded' s s' :=
  ⟨h.le, h.view, fun nodeId ack hack => (h.acks nodeId ack hack).imp_left (hmore ack)⟩

theorem trans (h : EpochMove tableName extension recorded s s')
    (h' : EpochMove tableName extension recorded s' s'') : EpochMove tableName extension recorded s s'' := by
  refine ⟨h.le.trans h'.le, fun hepoch view'' hview'' => ?_, fun nodeId ack hack => ?_⟩
  · -- the epoch can only have stayed the same twice
    have hmid : s'.cutoverEpoch tableName extension = s.cutoverEpoch tableName extension :=
      le_antisymm (hepoch ▸ h'.le) h.le
    obtain ⟨view', hview', hcontinues'⟩ := h'.view (hepoch.trans hmid.symm) view'' hview''
    obtain ⟨view, hview, hcontinues⟩ := h.view hmid view' hview'
    exact ⟨view, hview, hcontinues.trans hcontinues'⟩
  · rcases h'.acks nodeId ack hack with hrecorded | ⟨hepoch', hack'⟩
    · exact Or.inl hrecorded
    · exact (h.acks nodeId ack hack').imp_right fun ⟨hepoch, hack⟩ => ⟨hepoch'.trans hepoch, hack⟩

end EpochMove

/-! ### Elementary changes -/

theorem cutoverEpoch_startMembershipEpoch (s : EphemeralServiceImpl) (tableName₁ : String)
    (extension₁ : Option String) (target : String) (nodes : List String) :
    (s.startMembershipEpoch tableName₁ extension₁ target nodes).cutoverEpoch tableName extension =
      if selectorGroupKey tableName extension = selectorGroupKey tableName₁ extension₁ then
        s.cutoverEpoch tableName extension + 1
      else s.cutoverEpoch tableName extension := by
  change ((s.checkpointCutoverEpochs.insert (selectorGroupKey tableName₁ extension₁)
    (s.cutoverEpoch tableName₁ extension₁ + 1)).lookup (selectorGroupKey tableName extension)).getD 0 = _
  split
  · rename_i hkey
    rw [cutoverEpoch, cutoverEpoch, hkey, lookup_insert, Option.getD_some]
  · rename_i hkey
    rw [lookup_insert_ne hkey]
    rfl

theorem epochMove_startMembershipEpoch {tableName₁ target : String} {extension₁ : Option String} {nodes : List String}
    {recorded : ServingNodeActivationAck → Prop} :
    EpochMove tableName extension recorded s (s.startMembershipEpoch tableName₁ extension₁ target nodes) := by
  have hepoch : _ = ite _ (s.cutoverEpoch tableName extension + 1) _ :=
    s.cutoverEpoch_startMembershipEpoch tableName₁ extension₁ target nodes
  by_cases hkey : selectorGroupKey tableName extension = selectorGroupKey tableName₁ extension₁
  · rw [if_pos hkey] at hepoch
    refine ⟨by rw [hepoch]; exact Nat.le_succ _, fun hsame => ?_, fun nodeId ack hack => ?_⟩
    · rw [hepoch] at hsame
      exact absurd hsame (Nat.succ_ne_self _)
    have hnone : (s.startMembershipEpoch tableName₁ extension₁ target nodes).servingNodeActivations.lookup
        (selectorGroupKey tableName extension) = none := by
      rw [hkey]
      exact lookup_erase _ _
    rw [activationAck, hnone] at hack
    cases hack
  · rw [if_neg hkey] at hepoch
    refine .of_eq hepoch (lookup_insert_ne hkey) (funext fun nodeId => ?_)
    have hkept : (s.startMembershipEpoch tableName₁ extension₁ target nodes).servingNodeActivations.lookup
        (selectorGroupKey tableName extension) =
        s.servingNodeActivations.lookup (selectorGroupKey tableName extension) :=
      lookup_erase_ne hkey
    rw [activationAck, hkept, activationAck]

theorem CutoverOp.epochMove (h : CutoverOp c touched s s') (recorded : ServingNodeActivationAck → Prop) :
    EpochMove tableName extension recorded s s' := by
  cases h with
  | view hview =>
    cases hview with
    | retarget | reconfigure => exact epochMove_startMembershipEpoch
    | @backfill tableName₁ extension₁ view _ hview hnil _ =>
      -- filling in the nodes of a view that has none keeps its epoch and target
      by_cases hkey : selectorGroupKey tableName extension = selectorGroupKey tableName₁ extension₁
      · refine ⟨le_rfl, fun _ view' hview' => ⟨view, ?_, ?_⟩, fun _ _ hack => Or.inr ⟨rfl, hack⟩⟩
        · rw [getCutoverMembershipView, hkey]
          exact hview
        · rw [getCutoverMembershipView, hkey] at hview'
          cases (lookup_insert s.cutoverMembershipViews).symm.trans hview'
          exact ⟨rfl, rfl, Or.inr hnil⟩
      · exact .of_eq rfl (lookup_insert_ne hkey) rfl
    | prune | clearReadiness => exact .of_eq rfl rfl rfl
  | _ => exact .of_eq rfl rfl rfl

/-! ### Calls and runs -/

theorem epochMove_of_step (h : s.step c = some s') :
    EpochMove tableName extension (fun ack => c.call = .recordServingNodeActivation ack) s s' := by
  cases hkind : c.call.isCoordination with
  | false =>
    have hsame := (step_commitFrame hkind h).coordination
    cases s
    cases s'
    obtain ⟨rfl, rfl, rfl, rfl, rfl, rfl⟩ := Coordination.mk.inj hsame
    exact .of_eq rfl rfl rfl
  | true =>
    cases step_coordinationStep hkind h with
    | ops hops =>
      clear h
      induction hops with
      | refl => exact .refl s
      | tail _ hop ih => exact ih.trans (hop.epochMove _)
    | heartbeat _ heq | readiness _ heq =>
      rw [heq]
      exact .of_eq rfl rfl rfl
    | @activation ack hcall heq =>
      subst heq
      refine ⟨le_rfl, fun _ view' hview' => ⟨view', hview', .refl view'⟩, fun nodeId kept hkept => ?_⟩
      unfold activationAck recordServingNodeActivation at hkept
      rw [Dict.bind_lookup_insert_nested] at hkept
      split at hkept
      · cases hkept
        exact Or.inl hcall
      · exact Or.inr ⟨rfl, hkept⟩

theorem epochMove_of_exec {calls : List TimedCall} (h : Run.exec step s calls = some s') : EpochMove tableName extension
      (fun ack => ∃ c ∈ calls, c.call = .recordServingNodeActivation ack) s s' := by
  induction calls generalizing s with
  | nil =>
    cases h
    exact .refl _
  | cons c calls ih =>
    obtain ⟨mid, hmid, hrest⟩ := Option.bind_eq_some_iff.mp h
    refine ((epochMove_of_step hmid).mono fun ack hcall => ?_).trans ((ih hrest).mono fun ack hcall => ?_)
    · exact ⟨c, List.mem_cons_self, hcall⟩
    · obtain ⟨c', hmem, hcall⟩ := hcall
      exact ⟨c', List.mem_cons_of_mem _ hmem, hcall⟩

/-- A stored view has the epoch of its group. -/
def ViewsCurrent (s : EphemeralServiceImpl) : Prop :=
  ∀ tableName extension view, s.getCutoverMembershipView tableName extension = some view →
    view.epoch = s.cutoverEpoch tableName extension

theorem CutoverOp.viewsCurrent (h : CutoverOp c touched s s') (hcurrent : s.ViewsCurrent) : s'.ViewsCurrent := by
  -- while the epoch stays the view goes on, so only a new epoch needs its view looked at
  have hkept : ∀ tableName extension view', s'.getCutoverMembershipView tableName extension = some view' →
      s'.cutoverEpoch tableName extension = s.cutoverEpoch tableName extension →
      view'.epoch = s'.cutoverEpoch tableName extension := by
    intro tableName extension view' hview' hepoch
    obtain ⟨view, hview, hcontinues⟩ := (h.epochMove fun _ => False).view hepoch view' hview'
    rw [hcontinues.epoch, hepoch]
    exact hcurrent tableName extension view hview
  have hstarted : ∀ tableName₁ extension₁ target nodes,
      s' = s.startMembershipEpoch tableName₁ extension₁ target nodes → s'.ViewsCurrent := by
    intro tableName₁ extension₁ target nodes heq tableName extension view' hview'
    have hepoch : s'.cutoverEpoch tableName extension = ite _ (s.cutoverEpoch tableName extension + 1) _ :=
      heq ▸ s.cutoverEpoch_startMembershipEpoch tableName₁ extension₁ target nodes
    by_cases hkey : selectorGroupKey tableName extension = selectorGroupKey tableName₁ extension₁
    · rw [if_pos hkey] at hepoch
      subst heq
      rw [getCutoverMembershipView, hkey] at hview'
      cases (lookup_insert s.cutoverMembershipViews).symm.trans hview'
      rw [hepoch, cutoverEpoch, hkey]
    · rw [if_neg hkey] at hepoch
      exact hkept tableName extension view' hview' hepoch
  cases h with
  | view hview =>
    cases hview with
    | retarget => exact hstarted _ _ _ _ rfl
    | reconfigure => exact hstarted _ _ _ _ rfl
    | _ => exact fun tableName extension view' hview' => hkept tableName extension view' hview' rfl
  | _ => exact fun tableName extension view' hview' => hkept tableName extension view' hview' rfl

theorem viewsCurrent_of_step (h : s.step c = some s') (hcurrent : s.ViewsCurrent) : s'.ViewsCurrent := by
  cases hkind : c.call.isCoordination with
  | false =>
    have hsame := (step_commitFrame hkind h).coordination
    cases s
    cases s'
    obtain ⟨rfl, rfl, rfl, rfl, rfl, rfl⟩ := Coordination.mk.inj hsame
    exact hcurrent
  | true =>
    cases step_coordinationStep hkind h with
    | ops hops =>
      clear h
      induction hops with
      | refl => exact hcurrent
      | tail _ hop ih => exact hop.viewsCurrent ih
    | heartbeat _ heq | readiness _ heq | activation _ heq =>
      rw [heq]
      exact hcurrent

/-- **Cutover epochs.** Between two moments of a run, for every selector: the epoch of its group does not
fall, and the view stored at the later moment has the epoch of its group. If that view was not there at
the earlier moment, with the same target and the same nodes, then the epoch has risen, the one exception
being a view that had no node. And once the epoch has risen, every activation acknowledgement that is
kept was recorded after the earlier moment. -/
theorem cutoverEpochs_of_exec {mode : CompactionMode} {ids : IdInstance} {earlier later : List TimedCall}
    (hearlier : Run.exec step (new mode ids) earlier = some s) (hlater : Run.exec step s later = some s')
    (tableName : String) (extension : Option String) :
    s.cutoverEpoch tableName extension ≤ s'.cutoverEpoch tableName extension ∧
    (∀ view', s'.getCutoverMembershipView tableName extension = some view' →
      view'.epoch = s'.cutoverEpoch tableName extension ∧
      (s.cutoverEpoch tableName extension < s'.cutoverEpoch tableName extension ∨
        ∃ view, s.getCutoverMembershipView tableName extension = some view ∧
          view'.targetCheckpointId = view.targetCheckpointId ∧
          (view'.requiredNodeIds = view.requiredNodeIds ∨ view.requiredNodeIds = []))) ∧
    (s.cutoverEpoch tableName extension < s'.cutoverEpoch tableName extension →
      ∀ nodeId ack, s'.activationAck tableName extension nodeId = some ack →
        ∃ c ∈ later, c.call = .recordServingNodeActivation ack) := by
  have hmove : EpochMove tableName extension _ s s' := epochMove_of_exec hlater
  have hcurrent : s'.ViewsCurrent := by
    have hinit : (new mode ids).ViewsCurrent := nofun
    have hall : Run.exec step (new mode ids) (earlier ++ later) = some s' :=
      Run.exec_append_eq_some.mpr ⟨s, hearlier, hlater⟩
    exact Run.exec_invariant_all (fun _ _ _ hinv hstep => viewsCurrent_of_step hstep hinv) hinit hall
  refine ⟨hmove.le, fun view' hview' => ⟨hcurrent tableName extension view' hview', ?_⟩,
    fun hrisen nodeId ack hack => ?_⟩
  · rcases hmove.le.lt_or_eq with hrisen | hsame
    · exact Or.inl hrisen
    · obtain ⟨view, hview, hcontinues⟩ := hmove.view hsame.symm view' hview'
      exact Or.inr ⟨view, hview, hcontinues.target, hcontinues.nodes⟩
  · rcases hmove.acks nodeId ack hack with hrecorded | ⟨hsame, -⟩
    · exact hrecorded
    · exact absurd hsame hrisen.ne'

/-- The cutover in which a node is replaced, at the moment the second node comes alive and at its end:
the epoch has risen from `1` to `2`, and the acknowledgement that counts was recorded since. -/
theorem cutoverEpochs_of_exec_replacedNode :
    ∃ s s', Run.exec step (new .disabled .counting) (replacedNodeCalls.take 6) = some s ∧
      Run.exec step s (replacedNodeCalls.drop 6) = some s' ∧
      s.cutoverEpoch "t" none < s'.cutoverEpoch "t" none ∧
      ∃ ack, s'.activationAck "t" none "n2" = some ack ∧
        ∃ c ∈ replacedNodeCalls.drop 6, c.call = .recordServingNodeActivation ack := by
  obtain ⟨s, hs, s', hs', hrisen, ack, hack, -⟩ :
      ∃ s, Run.exec step (new .disabled .counting) (replacedNodeCalls.take 6) = some s ∧
      ∃ s', Run.exec step s (replacedNodeCalls.drop 6) = some s' ∧ s.cutoverEpoch "t" none < s'.cutoverEpoch "t" none ∧
        ∃ ack, s'.activationAck "t" none "n2" = some ack ∧ True := by decide +kernel
  exact ⟨s, s', hs, hs', hrisen, ack, hack, (cutoverEpochs_of_exec hs hs' "t" none).2.2 hrisen "n2" ack hack⟩

/-- A checkpoint is planned while no node is alive; a node acknowledges its activation and only then
sends its first heartbeat. -/
def firstNodeCalls : List TimedCall :=
  [⟨0, .addCheckpoint { tableName := "t", checkpointId := "c", schema := .minimal }⟩, ⟨0, .updateAllCheckpoints⟩,
    ⟨0, .recordServingNodeActivation ⟨.forTarget "t" none, "n", 1, "c", 0⟩⟩,
    ⟨0, .heartbeatServingNode ⟨"n", 0, 0⟩⟩]

def readyCalls : List TimedCall :=
  [⟨0, .recordArtifactReadiness ⟨.forTarget "t" none, "c", 1, .snapshotLookupMmap, "b", 0⟩⟩,
    ⟨0, .recordArtifactReadiness ⟨.forTarget "t" none, "c", 1, .snapshotExactLookupMmap, "b", 0⟩⟩,
    ⟨0, .updateAllCheckpoints⟩]

/-- Reading the cutover state gives the view without nodes its first node under the same epoch, and the
acknowledgement recorded before completes the view. -/
theorem cutoverEpochs_firstNode : ∃ s s' s'', Run.exec step (new .disabled .counting) firstNodeCalls = some s ∧
      s.step ⟨0, .getCheckpointCutoverState "t" none⟩ = some s' ∧
      (s.getCutoverMembershipView "t" none).map (·.requiredNodeIds) = some [] ∧
      (s'.getCutoverMembershipView "t" none).map (·.requiredNodeIds) = some ["n"] ∧
      s'.cutoverEpoch "t" none = s.cutoverEpoch "t" none ∧
      Run.exec step s' readyCalls = some s'' ∧
      s'.getPublishedCheckpointSync .active "t" none = none ∧
      s''.getPublishedCheckpointSync .active "t" none = some "c" := by
  simp only [exists_and_left]
  decide +kernel

end EphemeralServiceImpl

end PowdrrEngine
