import PowdrrEngine.SafetyIsolation

/-! What an update makes active. A selector is promoted exactly if, before the update, its latest checkpoint is
not active, every artifact that the checkpoint needs is acknowledged, its membership view is for the checkpoint
and every node of the view, or every live one if the view has none, has acknowledged it at the view's epoch.
The selectors of an update have keys of their own, so that none changes what another is judged by. -/

namespace PowdrrEngine

open List

namespace EphemeralServiceImpl

variable {s s' : EphemeralServiceImpl} {now : Int} {tableName : String} {extension : Option String} {id : String}
  {touched : String → Option String → Prop} {c : TimedCall}

/-! ### Promotions -/

section

variable (s now tableName extension id)

/-- The nodes whose lease has not run out. -/
def liveNodes : List String := (s.pruneExpiredServingNodeLeases now).liveServingNodeIds

/-- The nodes that have to acknowledge: those of the view, or the live ones where it has none. -/
def cutoverNodes (view : CutoverMembershipView) : List String :=
  if view.requiredNodeIds = [] then s.liveNodes now else view.requiredNodeIds

/-- The membership view is for the checkpoint; none of its nodes is gone while others live, and each has
acknowledged the checkpoint. -/
def Acknowledged : Prop :=
  ∃ view, s.getCutoverMembershipView tableName extension = some view ∧ view.targetCheckpointId = id ∧
    s.cutoverNodes now view ≠ [] ∧ (s.liveNodes now = [] ∨ s.cutoverNodes now view ⊆ s.liveNodes now) ∧
    ∀ nodeId ∈ s.cutoverNodes now view, ∃ ack, s.activationAck tableName extension nodeId = some ack ∧
      ack.checkpointId = id ∧ ack.epoch = view.epoch

/-- An update promotes the selector to the checkpoint. -/
structure Promotable : Prop where
  latest : s.getLatestMaterializedCheckpointSync tableName extension = some id
  inactive : s.getPublishedCheckpointSync .active tableName extension ≠ some id
  ready : ∀ artifactClass ∈ requiredArtifactClasses extension, ∃ ack,
    s.readinessAck tableName extension artifactClass = some ack ∧ ack.checkpointId = id
  acknowledged : s.Acknowledged now tableName extension id

end

theorem readinessMatchesTarget_iff : s.readinessMatchesTarget tableName extension id = true ↔
    ∀ artifactClass ∈ requiredArtifactClasses extension, ∃ ack,
      s.readinessAck tableName extension artifactClass = some ack ∧ ack.checkpointId = id := by
  unfold readinessMatchesTarget readinessAck
  cases s.artifactReadinessAcks.lookup (selectorGroupKey tableName extension) with
  | none =>
    obtain ⟨artifactClass, hmem⟩ : ∃ artifactClass, artifactClass ∈ requiredArtifactClasses extension := by
      unfold requiredArtifactClasses
      repeat' split
      all_goals exact ⟨_, mem_cons_self⟩
    simpa using ⟨artifactClass, hmem⟩
  | some acks => simp [Option.any_eq_true]

theorem prune_prune : (s.pruneExpiredServingNodeLeases now).pruneExpiredServingNodeLeases now =
    s.pruneExpiredServingNodeLeases now := by
  unfold pruneExpiredServingNodeLeases
  simp only [Dict.retain_retain]

/-- What is looked at once the view is brought up to date. -/
theorem activationMatchesTarget_eq_true {m : EphemeralServiceImpl} {view : CutoverMembershipView}
    (hm : (s.backfillCutoverMembershipForTarget now tableName extension
      id).maybeReconfigureCutoverMembershipForTarget now tableName extension id = m)
    (hview : m.getCutoverMembershipView tableName extension = some view) (htarget : view.targetCheckpointId = id) :
    (s.activationMatchesTarget now tableName extension id).1 = true ↔ view.requiredNodeIds ≠ [] ∧
      ∀ nodeId ∈ view.requiredNodeIds, ∃ ack, m.activationAck tableName extension nodeId = some ack ∧
        ack.checkpointId = id ∧ ack.epoch = view.epoch := by
  unfold activationMatchesTarget activationAck
  dsimp only
  rw [hm, hview]
  dsimp only
  by_cases hnodes : view.requiredNodeIds = []
  · simp [hnodes]
  · rw [if_neg (not_or.mpr ⟨not_not.mpr htarget, hnodes⟩)]
    cases m.servingNodeActivations.lookup (selectorGroupKey tableName extension) with
    | none => simpa [hnodes] using exists_mem_of_ne_nil _ hnodes
    | some acks => simp [hnodes, Option.any_eq_true]

section

variable {view : CutoverMembershipView} (hview : s.getCutoverMembershipView tableName extension = some view)

include hview

theorem maybeReconfigure_of_view (now : Int) (htarget : view.targetCheckpointId = id) :
    s.maybeReconfigureCutoverMembershipForTarget now tableName extension id =
      if s.liveNodes now = [] ∨ view.requiredNodeIds ⊆ s.liveNodes now then s.pruneExpiredServingNodeLeases now
      else (s.pruneExpiredServingNodeLeases now).startMembershipEpoch tableName extension id (s.liveNodes now) := by
  unfold maybeReconfigureCutoverMembershipForTarget
  rw [hview]
  dsimp only
  rw [if_neg (not_not.mpr htarget)]
  change (if (s.liveNodes now).isEmpty = true then _ else
    if (view.requiredNodeIds.all fun nodeId => nodeId ∈ s.liveNodes now) = true then _ else _) = _
  have hall : (view.requiredNodeIds.all fun nodeId => nodeId ∈ s.liveNodes now) = true ↔
      view.requiredNodeIds ⊆ s.liveNodes now := by
    simp [subset_def]
  simp only [List.isEmpty_iff, hall]
  by_cases hlive : s.liveNodes now = []
  · rw [if_pos hlive, if_pos (Or.inl hlive)]
  · rw [if_neg hlive]
    simp only [hlive, false_or]
    rfl

theorem backfill_of_nodes (now : Int) (id : String) (hnodes : view.requiredNodeIds ≠ []) :
    s.backfillCutoverMembershipForTarget now tableName extension id = s := by
  unfold backfillCutoverMembershipForTarget
  rw [hview]
  exact if_pos (Or.inr hnodes)

theorem backfill_of_empty (now : Int) (htarget : view.targetCheckpointId = id) (hnodes : view.requiredNodeIds = []) :
    s.backfillCutoverMembershipForTarget now tableName extension id =
      if s.liveNodes now = [] then s.pruneExpiredServingNodeLeases now
      else (s.pruneExpiredServingNodeLeases now).storeCutoverMembershipView tableName extension view.epoch id
        (s.liveNodes now) := by
  unfold backfillCutoverMembershipForTarget
  rw [hview]
  dsimp only
  rw [if_neg (not_or.mpr ⟨not_not.mpr htarget, not_not.mpr hnodes⟩)]
  simp only [List.isEmpty_iff]
  rfl

end

theorem liveNodes_prune : (s.pruneExpiredServingNodeLeases now).liveNodes now = s.liveNodes now := by
  rw [liveNodes, prune_prune]
  rfl

section

variable {view : CutoverMembershipView} (hview : s.getCutoverMembershipView tableName extension = some view)
  (htarget : view.targetCheckpointId = id)

include hview htarget

/-- A view without nodes: the live nodes become its nodes. -/
theorem activationMatchesTarget_of_empty (hnodes : view.requiredNodeIds = []) :
    (s.activationMatchesTarget now tableName extension id).1 = true ↔ s.liveNodes now ≠ [] ∧
      ∀ nodeId ∈ s.liveNodes now, ∃ ack, s.activationAck tableName extension nodeId = some ack ∧
        ack.checkpointId = id ∧ ack.epoch = view.epoch := by
  have hbackfill := backfill_of_empty hview now htarget hnodes
  by_cases hlive : s.liveNodes now = []
  · have hpruned : (s.pruneExpiredServingNodeLeases now).getCutoverMembershipView tableName extension = some view :=
      hview
    have hm := maybeReconfigure_of_view hpruned now htarget
    rw [liveNodes_prune, if_pos (Or.inl hlive), prune_prune] at hm
    rw [if_pos hlive] at hbackfill
    rw [activationMatchesTarget_eq_true (by rw [hbackfill, hm]) hpruned htarget]
    simp [hnodes, hlive]
  · rw [if_neg hlive] at hbackfill
    have hfilled : ((s.pruneExpiredServingNodeLeases now).storeCutoverMembershipView tableName extension view.epoch id
        (s.liveNodes now)).getCutoverMembershipView tableName extension =
        some ⟨.forTarget tableName extension, view.epoch, id, s.liveNodes now⟩ := AList.lookup_insert _
    have hlives : ((s.pruneExpiredServingNodeLeases now).storeCutoverMembershipView tableName extension view.epoch id
        (s.liveNodes now)).liveNodes now = s.liveNodes now := liveNodes_prune
    have hm := maybeReconfigure_of_view hfilled now rfl
    rw [hlives, if_pos (Or.inr (Subset.refl _))] at hm
    have hviews : (((s.pruneExpiredServingNodeLeases now).storeCutoverMembershipView tableName extension view.epoch id
        (s.liveNodes now)).pruneExpiredServingNodeLeases now).getCutoverMembershipView tableName extension =
        some ⟨.forTarget tableName extension, view.epoch, id, s.liveNodes now⟩ := hfilled
    exact activationMatchesTarget_eq_true (by rw [hbackfill]; exact hm) hviews rfl

/-- A view with nodes: it is replaced, and nobody has acknowledged, if one of them is gone while others live. -/
theorem activationMatchesTarget_of_nodes (hnodes : view.requiredNodeIds ≠ []) :
    (s.activationMatchesTarget now tableName extension id).1 = true ↔
      (s.liveNodes now = [] ∨ view.requiredNodeIds ⊆ s.liveNodes now) ∧
      ∀ nodeId ∈ view.requiredNodeIds, ∃ ack, s.activationAck tableName extension nodeId = some ack ∧
        ack.checkpointId = id ∧ ack.epoch = view.epoch := by
  have hm := maybeReconfigure_of_view hview now htarget
  have hbackfill := backfill_of_nodes hview now id hnodes
  by_cases hkeeps : s.liveNodes now = [] ∨ view.requiredNodeIds ⊆ s.liveNodes now
  · rw [if_pos hkeeps] at hm
    rw [and_iff_right hkeeps,
      activationMatchesTarget_eq_true (by rw [hbackfill, hm]) (by exact hview) htarget, and_iff_right hnodes]
    rfl
  · rw [if_neg hkeeps] at hm
    have hreplaced : ((s.pruneExpiredServingNodeLeases now).startMembershipEpoch tableName extension id
        (s.liveNodes now)).getCutoverMembershipView tableName extension = some ⟨.forTarget tableName extension,
        s.checkpointCutoverEpochs.getD (selectorGroupKey tableName extension) 0 + 1, id, s.liveNodes now⟩ :=
      AList.lookup_insert _
    have hnone (nodeId : String) : ((s.pruneExpiredServingNodeLeases now).startMembershipEpoch tableName extension id
        (s.liveNodes now)).activationAck tableName extension nodeId = none := by
      rw [activationAck]
      exact congrArg (fun acks => Option.bind acks _) (AList.lookup_erase _ _)
    refine iff_of_false (fun h => ?_) fun h => hkeeps h.1
    obtain ⟨hne, hacks⟩ := (activationMatchesTarget_eq_true (by rw [hbackfill, hm]) hreplaced rfl).mp h
    obtain ⟨nodeId, hmem⟩ := exists_mem_of_ne_nil _ hne
    obtain ⟨ack, hack, -⟩ := hacks nodeId hmem
    rw [hnone nodeId] at hack
    cases hack

end

theorem activationMatchesTarget_iff : (s.activationMatchesTarget now tableName extension id).1 = true ↔
    s.Acknowledged now tableName extension id := by
  unfold Acknowledged
  cases hview : s.getCutoverMembershipView tableName extension with
  | none =>
    simp [activationMatchesTarget, backfillCutoverMembershipForTarget, maybeReconfigureCutoverMembershipForTarget, hview]
  | some view =>
    by_cases htarget : view.targetCheckpointId = id
    · simp only [Option.some.injEq, exists_eq_left', htarget, true_and, cutoverNodes]
      by_cases hnodes : view.requiredNodeIds = []
      · rw [activationMatchesTarget_of_empty hview htarget hnodes, if_pos hnodes]
        simp
      · rw [activationMatchesTarget_of_nodes hview htarget hnodes, if_neg hnodes, and_iff_right hnodes]
    · simp [activationMatchesTarget, backfillCutoverMembershipForTarget, maybeReconfigureCutoverMembershipForTarget,
        hview, htarget]

/-! ### One selector of an update -/

section

variable (s now tableName extension)

/-- A selector is looked at: its target is advanced, then it is promoted. -/
def updateSelector : EphemeralServiceImpl :=
  ((s.advanceTargetCheckpoint now tableName extension).2.promoteActiveCheckpointIfReady now tableName extension).2

theorem advanceTargetCheckpoint_of_view {view : CutoverMembershipView}
    (hlatest : s.getLatestMaterializedCheckpointSync tableName extension = some view.targetCheckpointId)
    (hview : s.getCutoverMembershipView tableName extension = some view) :
    (s.advanceTargetCheckpoint now tableName extension).2 = s := by
  unfold advanceTargetCheckpoint
  rw [hlatest]
  dsimp only
  rw [hview, Option.map_some, if_neg (by simp), captureCutoverMembershipForTarget, hview, if_pos (by simp)]

/-- The artifacts are asked for anew if the view is not for the latest checkpoint. -/
theorem readinessMatchesTarget_advanceTarget
    (hlatest : s.getLatestMaterializedCheckpointSync tableName extension = some id)
    (hother : (s.getCutoverMembershipView tableName extension).map (·.targetCheckpointId) ≠ some id) :
    (s.advanceTargetCheckpoint now tableName extension).2.readinessMatchesTarget tableName extension id = false := by
  have hreadiness : (s.advanceTargetCheckpoint now tableName extension).2.artifactReadinessAcks =
      s.artifactReadinessAcks.erase (selectorGroupKey tableName extension) := by
    unfold advanceTargetCheckpoint
    rw [hlatest]
    dsimp only
    rw [if_pos hother]
    unfold captureCutoverMembershipForTarget
    split <;> rfl
  rw [readinessMatchesTarget, hreadiness, AList.lookup_erase]

/-- **One selector**: it is promoted if it can be, and nothing else is published. -/
theorem published_updateSelector :
    (∃ id, s.Promotable now tableName extension id ∧ (s.updateSelector now tableName extension).publishedCheckpointId =
      s.publishedCheckpointId.insert (selectorStorageKey .active tableName extension) id) ∨
    ((∀ id, ¬ s.Promotable now tableName extension id) ∧
      (s.updateSelector now tableName extension).publishedCheckpointId = s.publishedCheckpointId) := by
  have hops : ViewOps now (Selects tableName extension) s (s.advanceTargetCheckpoint now tableName extension).2 :=
    viewOps_advanceTarget s now ⟨rfl, rfl⟩
  have hadvanced := s.getPublished_advanceTargetCheckpoint now tableName extension
  have hsame := (CutoverFrame.of_viewOps hops).getLatest tableName extension
  unfold updateSelector promoteActiveCheckpointIfReady
  rw [hsame]
  cases hlatest : s.getLatestMaterializedCheckpointSync tableName extension with
  | none => exact Or.inr ⟨fun id h => (Option.some_ne_none id) (h.latest.symm.trans hlatest), hadvanced⟩
  | some id =>
    have honly : ∀ other, s.Promotable now tableName extension other → other = id := fun other h =>
      Option.some.inj (h.latest.symm.trans hlatest)
    by_cases hview : (s.getCutoverMembershipView tableName extension).map (·.targetCheckpointId) = some id
    · obtain ⟨view, hfound, rfl⟩ := Option.map_eq_some_iff.mp hview
      rw [s.advanceTargetCheckpoint_of_view now tableName extension hlatest hfound]
      dsimp only
      split
      · rename_i hactive
        exact Or.inr ⟨fun other h => h.inactive (honly other h ▸ hactive), rfl⟩
      rename_i hactive
      split
      · rename_i hready
        refine Or.inr ⟨fun other h => ?_, rfl⟩
        rw [readinessMatchesTarget_iff.mpr (honly other h ▸ h.ready)] at hready
        cases hready
      rename_i hready
      have hmatch : (s.activationMatchesTarget now tableName extension view.targetCheckpointId).1 = true ↔
          s.Acknowledged now tableName extension view.targetCheckpointId := activationMatchesTarget_iff
      have hactivation : ViewOps now (Selects tableName extension) s
          (s.activationMatchesTarget now tableName extension view.targetCheckpointId).2 :=
        viewOps_activationMatchesTarget s now ⟨rfl, rfl⟩ _
      have hpublished := congrArg CheckpointCatalog.publishedCheckpointId (catalog_of_viewOps hactivation)
      split
      · rename_i m heq
        rw [heq] at hmatch hpublished
        refine Or.inr ⟨fun other h => ?_, hpublished⟩
        exact Bool.false_ne_true (hmatch.mpr (honly other h ▸ h.acknowledged))
      · rename_i m heq
        rw [heq] at hmatch hpublished
        have hready : s.readinessMatchesTarget tableName extension view.targetCheckpointId = true := by simpa using hready
        refine Or.inl ⟨_, ⟨hlatest, hactive, readinessMatchesTarget_iff.mp hready, hmatch.mp rfl⟩, ?_⟩
        exact congrArg (AList.insert _ _) hpublished
    · -- the view is for another checkpoint: the artifacts of this one are not acknowledged yet
      dsimp only
      rw [s.readinessMatchesTarget_advanceTarget now tableName extension hlatest hview, if_pos rfl, ite_self]
      refine Or.inr ⟨fun other h => hview ?_, hadvanced⟩
      obtain ⟨view, hfound, htarget, -⟩ := h.acknowledged
      rw [hfound, Option.map_some, htarget, honly other h]

end

/-! ### The selectors of an update -/

theorem liveNodes_of_cutoverOps (h : CutoverOps c touched s s') : s'.liveNodes c.now = s.liveNodes c.now := by
  induction h with
  | refl => rfl
  | tail _ hop ih =>
    refine Eq.trans ?_ ih
    cases hop with
    | view hview =>
      cases hview with
      | prune => exact liveNodes_prune
      | _ => rfl
    | _ => rfl

theorem promotable_congr (hsame : SameCoordination tableName extension s s')
    (hlatest : s'.getLatestMaterializedCheckpointSync tableName extension =
      s.getLatestMaterializedCheckpointSync tableName extension) (hlive : s'.liveNodes now = s.liveNodes now) :
    s'.Promotable now tableName extension id ↔ s.Promotable now tableName extension id := by
  have hready (artifactClass : ArtifactClass) :
      s'.readinessAck tableName extension artifactClass = s.readinessAck tableName extension artifactClass := by
    rw [readinessAck, hsame.readiness, readinessAck]
  have hack (nodeId : String) : s'.activationAck tableName extension nodeId = s.activationAck tableName extension nodeId := by
    rw [activationAck, hsame.activations, activationAck]
  have hacknowledged : s'.Acknowledged now tableName extension id ↔ s.Acknowledged now tableName extension id := by
    simp only [Acknowledged, cutoverNodes, hsame.view, hlive, hack]
  constructor
  · intro h
    exact ⟨hlatest ▸ h.latest, hsame.published _ ▸ h.inactive, fun a ha => hready a ▸ h.ready a ha,
      hacknowledged.mp h.acknowledged⟩
  · intro h
    exact ⟨hlatest ▸ h.latest, hsame.published _ ▸ h.inactive, fun a ha => hready a ▸ h.ready a ha,
      hacknowledged.mpr h.acknowledged⟩

abbrev keyOf (selector : String × Option String) : String := selectorGroupKey selector.1 selector.2

variable {first rest selectors : List (String × Option String)}

/-- The checkpoint is active for the selector once the selectors of a list have been looked at. Selectors with
one key share what is published for them. -/
def ActiveAfter (s : EphemeralServiceImpl) (now : Int) (selectors : List (String × Option String)) (tableName : String)
    (extension : Option String) (id : String) : Prop :=
  (∃ selector ∈ selectors, keyOf selector = selectorGroupKey tableName extension ∧
    s.Promotable now selector.1 selector.2 id) ∨
  (s.getPublishedCheckpointSync .active tableName extension = some id ∧ ∀ selector ∈ selectors,
    keyOf selector = selectorGroupKey tableName extension → ∀ other, ¬ s.Promotable now selector.1 selector.2 other)

/-- Selectors with other keys are judged as before. -/
theorem activeAfter_append
    (hactive : ∀ id, s'.getPublishedCheckpointSync .active tableName extension = some id ↔
      s.ActiveAfter now first tableName extension id)
    (hrest : ∀ selector ∈ rest, ∀ id, s'.Promotable now selector.1 selector.2 id ↔
      s.Promotable now selector.1 selector.2 id)
    (hkeys : ∀ a ∈ first, ∀ b ∈ rest, keyOf a ≠ keyOf b) :
    s'.ActiveAfter now rest tableName extension id ↔ s.ActiveAfter now (first ++ rest) tableName extension id := by
  unfold ActiveAfter
  rw [hactive]
  constructor
  · rintro (⟨selector, hmem, hkey, hpromotable⟩ | ⟨⟨selector, hmem, hkey, hpromotable⟩ | ⟨hid, hfirst⟩, hnone⟩)
    · exact Or.inl ⟨selector, mem_append_right _ hmem, hkey, (hrest _ hmem _).mp hpromotable⟩
    · exact Or.inl ⟨selector, mem_append_left _ hmem, hkey, hpromotable⟩
    · refine Or.inr ⟨hid, fun selector hmem hkey other hpromotable => ?_⟩
      rcases mem_append.mp hmem with hmem | hmem
      · exact hfirst selector hmem hkey other hpromotable
      · exact hnone selector hmem hkey other ((hrest _ hmem _).mpr hpromotable)
  · rintro (⟨selector, hmem, hkey, hpromotable⟩ | ⟨hid, hnone⟩)
    · rcases mem_append.mp hmem with hmem | hmem
      · refine Or.inr ⟨Or.inl ⟨selector, hmem, hkey, hpromotable⟩, fun other hother hkey' => ?_⟩
        exact absurd (hkey.trans hkey'.symm) (hkeys _ hmem _ hother)
      · exact Or.inl ⟨selector, hmem, hkey, (hrest _ hmem _).mpr hpromotable⟩
    · refine Or.inr ⟨Or.inr ⟨hid, fun selector hmem => hnone selector (mem_append_left _ hmem)⟩, ?_⟩
      intro selector hmem hkey other hpromotable
      exact hnone selector (mem_append_right _ hmem) hkey other ((hrest _ hmem _).mp hpromotable)

/-- One selector. -/
theorem activeAfter_updateSelector (t : String) (e : Option String) :
    (s.updateSelector now t e).getPublishedCheckpointSync .active tableName extension = some id ↔
      s.ActiveAfter now [(t, e)] tableName extension id := by
  unfold ActiveAfter getPublishedCheckpointSync
  simp only [mem_singleton, forall_eq, exists_eq_left]
  rcases s.published_updateSelector now t e with ⟨target, hpromotable, hpublished⟩ | ⟨hnone, hpublished⟩
  · have honly : ∀ other, s.Promotable now t e other ↔ other = target := by
      intro other
      refine ⟨fun h => Option.some.inj (h.latest.symm.trans hpromotable.latest), ?_⟩
      rintro rfl
      exact hpromotable
    rw [hpublished]
    by_cases hkey : selectorGroupKey t e = selectorGroupKey tableName extension
    · have hstorage : selectorStorageKey .active t e = selectorStorageKey .active tableName extension := by
        rw [selectorStorageKey_eq, hkey, selectorStorageKey_eq]
      rw [hstorage, AList.lookup_insert]
      simp [hkey, honly, eq_comm]
    · rw [AList.lookup_insert_ne fun heq => hkey (selectorGroupKey_of_storageKey heq).symm]
      simp [hkey]
  · rw [hpublished]
    simp [hnone]

end EphemeralServiceImpl

end PowdrrEngine
