import PowdrrEngine.ServiceCommitOps

/-! What the calls leave alone. The service keeps two kinds of records: those of the tables and their
checkpoints, which commits change, and those by which a cutover is coordinated. A call that is no
request of the coordination interface changes no coordination record, and a coordination request
neither moves a frontier nor makes or finishes work. -/

namespace PowdrrEngine

structure Coordination where
  publishedCheckpointId : Dict String String
  checkpointCutoverEpochs : Dict String CutoverEpoch
  cutoverMembershipViews : Dict String CutoverMembershipView
  servingNodeLeases : Dict String ServingNodeLease
  servingNodeActivations : Dict String (Dict String ServingNodeActivationAck)
  artifactReadinessAcks : Dict String (Dict ArtifactClass ArtifactReadinessAck)

namespace EphemeralServiceImpl

def coordination (s : EphemeralServiceImpl) : Coordination :=
  { publishedCheckpointId := s.publishedCheckpointId
    checkpointCutoverEpochs := s.checkpointCutoverEpochs
    cutoverMembershipViews := s.cutoverMembershipViews
    servingNodeLeases := s.servingNodeLeases
    servingNodeActivations := s.servingNodeActivations
    artifactReadinessAcks := s.artifactReadinessAcks }

/-! ### Commits -/

/-- The frame of a commit that may move the frontiers of `touched`. -/
structure CommitFrame (touched : List (Option String)) (s s' : EphemeralServiceImpl) : Prop where
  mode : s'.mode = s.mode
  ids : s'.ids = s.ids
  coordination : s'.coordination = s.coordination
  frontiers : ∀ extension ∉ touched, s'.latestCommittedCheckpointId.lookup extension =
    s.latestCommittedCheckpointId.lookup extension
  work : s.extensionWorkItems.entries ≠ [] → s'.extensionWorkItems.entries ≠ []

namespace CommitFrame

variable {touched : List (Option String)} {s s' s'' : EphemeralServiceImpl}

theorem refl (s : EphemeralServiceImpl) : CommitFrame touched s s := ⟨rfl, rfl, rfl, fun _ _ => rfl, id⟩

theorem of_op {c : TimedCall} (h : CommitOp c s s') : CommitFrame c.call.frontiers s s' := by
  cases h with
  | setLatest _ tableName checkpointId hmem =>
    refine ⟨rfl, rfl, rfl, fun e he => AList.lookup_insert_ne ?_, id⟩
    exact fun heq => he (heq ▸ hmem)
  | startWork | moreWork | lessWork | claimExtensions =>
    exact ⟨rfl, rfl, rfl, fun _ _ => rfl, fun _ => List.cons_ne_nil _ _⟩
  | _ => exact ⟨rfl, rfl, rfl, fun _ _ => rfl, id⟩

theorem of_ops {c : TimedCall} (h : CommitOps c s s') : CommitFrame c.call.frontiers s s' := by
  induction h with
  | refl => exact refl s
  | tail _ hop ih =>
    have h := of_op hop
    exact ⟨h.mode.trans ih.mode, h.ids.trans ih.ids, h.coordination.trans ih.coordination,
      fun e he => (h.frontiers e he).trans (ih.frontiers e he), h.work ∘ ih.work⟩

end CommitFrame

/-- **What a call outside the coordination interface leaves alone.** -/
theorem step_commitFrame {s s' : EphemeralServiceImpl} {c : TimedCall} (hcall : c.call.isCoordination = false)
    (h : s.step c = some s') : CommitFrame c.call.frontiers s s' :=
  .of_ops (step_commitOps hcall h)

/-! ### Coordination requests -/

/-- The records kept under the key of one selector. -/
def coordinationAt (s : EphemeralServiceImpl) (key : String) :
    Option CutoverMembershipView × Option (Dict String ServingNodeActivationAck) ×
      Option (Dict ArtifactClass ArtifactReadinessAck) :=
  (s.cutoverMembershipViews.lookup key, s.servingNodeActivations.lookup key, s.artifactReadinessAcks.lookup key)

/-- The frame of a coordination request that works on the selectors `touched`: the frontiers and the work
stay, no acknowledgement is added, and the records under other keys are left alone. -/
structure CutoverFrame (touched : String → Option String → Prop) (s s' : EphemeralServiceImpl) : Prop where
  mode : s'.mode = s.mode
  ids : s'.ids = s.ids
  frontiers : s'.latestCommittedCheckpointId = s.latestCommittedCheckpointId
  aliases : s'.tableAliases = s.tableAliases
  work : s'.extensionWorkItems = s.extensionWorkItems
  readiness : s'.artifactReadinessAcks.Sub s.artifactReadinessAcks
  activations : s'.servingNodeActivations.Sub s.servingNodeActivations
  others : ∀ key, (∀ t e, touched t e → key ≠ selectorGroupKey t e) → s'.coordinationAt key = s.coordinationAt key

namespace CutoverFrame

variable {touched : String → Option String → Prop} {s s' s'' : EphemeralServiceImpl} {now : Int}

theorem refl (s : EphemeralServiceImpl) : CutoverFrame touched s s :=
  ⟨rfl, rfl, rfl, rfl, rfl, .refl _, .refl _, fun _ _ => rfl⟩

theorem trans (h : CutoverFrame touched s s') (h' : CutoverFrame touched s' s'') : CutoverFrame touched s s'' where
  mode := h'.mode.trans h.mode
  ids := h'.ids.trans h.ids
  frontiers := h'.frontiers.trans h.frontiers
  aliases := h'.aliases.trans h.aliases
  work := h'.work.trans h.work
  readiness := h'.readiness.trans h.readiness
  activations := h'.activations.trans h.activations
  others := fun key hkey => (h'.others key hkey).trans (h.others key hkey)

theorem startMembershipEpoch {tableName : String} {extension : Option String} (ht : touched tableName extension)
    (s : EphemeralServiceImpl) (target : String) (nodes : List String) :
    CutoverFrame touched s (s.startMembershipEpoch tableName extension target nodes) := by
  refine ⟨rfl, rfl, rfl, rfl, rfl, .refl _, Dict.erase_sub _ _, fun key hother => ?_⟩
  have hne := hother _ _ ht
  simp [coordinationAt, EphemeralServiceImpl.startMembershipEpoch, bumpCutoverEpoch,
    clearServingNodeActivations, storeCutoverMembershipView, AList.lookup_insert_ne hne,
    AList.lookup_erase_ne hne]

theorem of_viewOp (h : ViewOp now touched s s') : CutoverFrame touched s s' := by
  cases h with
  | prune => exact ⟨rfl, rfl, rfl, rfl, rfl, .refl _, .refl _, fun _ _ => rfl⟩
  | clearReadiness ht =>
    refine ⟨rfl, rfl, rfl, rfl, rfl, Dict.erase_sub _ _, .refl _, fun key hother => ?_⟩
    simp [coordinationAt, clearArtifactReadiness, AList.lookup_erase_ne (hother _ _ ht)]
  | retarget ht => exact startMembershipEpoch ht s _ _
  | reconfigure ht => exact startMembershipEpoch ht s _ _
  | backfill ht =>
    refine ⟨rfl, rfl, rfl, rfl, rfl, .refl _, .refl _, fun key hother => ?_⟩
    simp [coordinationAt, storeCutoverMembershipView, AList.lookup_insert_ne (hother _ _ ht)]

theorem of_viewOps (h : ViewOps now touched s s') : CutoverFrame touched s s' := by
  induction h with
  | refl => exact refl s
  | tail _ hop ih => exact ih.trans (of_viewOp hop)

theorem of_ops {c : TimedCall} (h : CutoverOps c touched s s') : CutoverFrame touched s s' := by
  induction h with
  | refl => exact refl s
  | tail _ hop ih =>
    refine ih.trans ?_
    cases hop with
    | view hview => exact of_viewOp hview
    | _ => exact ⟨rfl, rfl, rfl, rfl, rfl, .refl _, .refl _, fun _ _ => rfl⟩

end CutoverFrame

/-- **What a coordination request leaves alone**; an acknowledgement is only recorded. -/
theorem step_cutoverFrame {s s' : EphemeralServiceImpl} {c : TimedCall} (hcall : c.call.isCoordination = true)
    (h : s.step c = some s') :
    (∃ touched, CutoverFrame touched s s') ∨
      (∃ ack, c.call = .recordServingNodeActivation ack ∧ s' = s.recordServingNodeActivation ack) ∨
      ∃ ack, c.call = .recordArtifactReadiness ack ∧ s' = s.recordArtifactReadiness ack := by
  cases step_coordinationStep hcall h with
  | ops hops => exact .inl ⟨_, .of_ops hops⟩
  | heartbeat _ heq =>
    rw [heq]
    exact .inl ⟨fun _ _ => False, rfl, rfl, rfl, rfl, rfl, .refl _, .refl _, fun _ _ => rfl⟩
  | activation hcall heq => exact .inr (.inl ⟨_, hcall, heq⟩)
  | readiness hcall heq => exact .inr (.inr ⟨_, hcall, heq⟩)

end EphemeralServiceImpl

end PowdrrEngine
