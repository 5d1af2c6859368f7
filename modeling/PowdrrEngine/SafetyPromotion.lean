import PowdrrEngine.ServiceEffects

/-! When a checkpoint becomes active. Only an update of the checkpoints publishes an active checkpoint,
and in the state it leaves every artifact class that the extension requires has a readiness
acknowledgement for the checkpoint, and every node of a non-empty membership view has an activation
acknowledgement for it at the view's epoch. The acknowledgements are kept under a key glued from the
selector's parts; for extensions the key tells apart they are the selector's own. -/

namespace PowdrrEngine

open List Option

namespace EphemeralServiceImpl

variable {extension : Option String} {touched : String → Option String → Prop} {s₀ : EphemeralServiceImpl}
  {tableName : String} {c : TimedCall} {extension' : Option String} {tableName' : String}

/-! ### Keys -/

/-- An extension that a key gives back: none, or a name that is not empty and has no `'|'`. -/
def PlainExtension (extension : Option String) : Prop :=
  extension ≠ some "" ∧ '|' ∉ (extensionStorageKey extension).toList

instance (extension : Option String) : Decidable (PlainExtension extension) := inferInstanceAs (Decidable (_ ∧ _))

theorem plainExtension_of_updated (h : extension ∈ [none, some "es"]) : PlainExtension extension := by
  rcases mem_pair.mp h with rfl | rfl <;> decide

theorem selectorGroupKey_inj (he : PlainExtension extension) (he' : PlainExtension extension')
    (h : selectorGroupKey tableName extension = selectorGroupKey tableName' extension') :
    tableName = tableName' ∧ extension = extension' := by
  obtain ⟨hext, htable⟩ := Text.glue_inj_of_notMem_left (c := '|') he.2 he'.2 h
  refine ⟨htable, ?_⟩
  rw [← extensionFromStorageKey_storageKey he.1, ← extensionFromStorageKey_storageKey he'.1, hext]

theorem selectorStorageKey_eq (role : PublishedCheckpointRole) (tableName : String) (extension : Option String) :
    selectorStorageKey role tableName extension = roleKey role ++ "|" ++ selectorGroupKey tableName extension := by
  simp [selectorStorageKey, selectorGroupKey, String.append_assoc]

theorem selectorGroupKey_of_storageKey {role : PublishedCheckpointRole}
    (h : selectorStorageKey role tableName extension = selectorStorageKey role tableName' extension') :
    selectorGroupKey tableName extension = selectorGroupKey tableName' extension' := by
  rw [selectorStorageKey_eq, selectorStorageKey_eq] at h
  have hl := congrArg String.toList h
  simp only [String.toList_append] at hl
  exact String.toList_inj.mp (append_cancel_left hl)

/-! ### Where acknowledgements come from -/

section

variable (s : EphemeralServiceImpl) (tableName : String) (extension : Option String)

/-- The readiness acknowledgement kept for a class. -/
def readinessAck (artifactClass : ArtifactClass) : Option ArtifactReadinessAck :=
  (s.artifactReadinessAcks.lookup (selectorGroupKey tableName extension)).bind (·.lookup artifactClass)

/-- The activation acknowledgement kept for a node. -/
def activationAck (nodeId : String) : Option ServingNodeActivationAck :=
  (s.servingNodeActivations.lookup (selectorGroupKey tableName extension)).bind (·.lookup nodeId)

end

/-- Every acknowledgement that is kept was recorded by one of the calls, under the key of its own
selector. -/
structure Recorded (calls : List ServiceCall) (s : EphemeralServiceImpl) : Prop where
  readiness : ∀ key acks artifactClass ack, s.artifactReadinessAcks.lookup key = some acks →
    acks.lookup artifactClass = some ack → ack.artifactClass = artifactClass ∧
      selectorGroupKey ack.selector.tableName ack.selector.extension = key ∧
      .recordArtifactReadiness ack ∈ calls
  activations : ∀ key acks nodeId ack, s.servingNodeActivations.lookup key = some acks →
    acks.lookup nodeId = some ack → ack.nodeId = nodeId ∧
      selectorGroupKey ack.selector.tableName ack.selector.extension = key ∧
      .recordServingNodeActivation ack ∈ calls

variable {calls : List ServiceCall} {s s' : EphemeralServiceImpl}

theorem Recorded.mono {more : List ServiceCall} (h : Recorded calls s) (hsub : calls ⊆ more) : Recorded more s where
  readiness := fun key acks artifactClass ack hacks hack =>
    (h.readiness key acks artifactClass ack hacks hack).imp_right (And.imp_right (@hsub _))
  activations := fun key acks nodeId ack hacks hack =>
    (h.activations key acks nodeId ack hacks hack).imp_right (And.imp_right (@hsub _))

theorem Recorded.of_sub (h : Recorded calls s) (hreadiness : s'.artifactReadinessAcks.Sub s.artifactReadinessAcks)
    (hactivations : s'.servingNodeActivations.Sub s.servingNodeActivations) : Recorded calls s' where
  readiness := fun key acks artifactClass ack hacks =>
    h.readiness key acks artifactClass ack (hreadiness key acks hacks)
  activations := fun key acks nodeId ack hacks =>
    h.activations key acks nodeId ack (hactivations key acks hacks)

theorem Recorded.step (h : Recorded calls s) (hstep : s.step c = some s') : Recorded (calls ++ [c.call]) s' := by
  have hmore : Recorded (calls ++ [c.call]) s := h.mono (subset_append_left _ _)
  cases hcall : c.call.isCoordination with
  | true =>
    rcases step_cutoverFrame hcall hstep with ⟨touched, hframe⟩ | ⟨ack, heq, rfl⟩ | ⟨ack, heq, rfl⟩
    · exact hmore.of_sub hframe.readiness hframe.activations
    · refine ⟨hmore.readiness, fun key acks nodeId ack' hacks hack => ?_⟩
      rcases Dict.lookup_insert_nested hacks hack with ⟨rfl, rfl, rfl⟩ | ⟨old, hold, hack'⟩
      · exact ⟨rfl, rfl, heq ▸ mem_append_right _ mem_cons_self⟩
      · exact hmore.activations key old nodeId ack' hold hack'
    · refine ⟨fun key acks artifactClass ack' hacks hack => ?_, hmore.activations⟩
      rcases Dict.lookup_insert_nested hacks hack with ⟨rfl, rfl, rfl⟩ | ⟨old, hold, hack'⟩
      · exact ⟨rfl, rfl, heq ▸ mem_append_right _ mem_cons_self⟩
      · exact hmore.readiness key old artifactClass ack' hold hack'
  | false =>
    have hframe := step_commitFrame hcall hstep
    have hr : s'.artifactReadinessAcks = s.artifactReadinessAcks :=
      congrArg Coordination.artifactReadinessAcks hframe.coordination
    have ha : s'.servingNodeActivations = s.servingNodeActivations :=
      congrArg Coordination.servingNodeActivations hframe.coordination
    exact hmore.of_sub (hr ▸ .refl _) (ha ▸ .refl _)

theorem recorded_of_exec {mode : CompactionMode} {ids : IdInstance} {calls : List TimedCall}
    (h : Run.exec step (new mode ids) calls = some s) : Recorded (calls.map (·.call)) s := by
  induction calls using List.reverseRecOn generalizing s with
  | nil =>
    cases h
    exact ⟨nofun, nofun⟩
  | append_singleton calls c ih =>
    obtain ⟨m, hm, hstep⟩ := Run.exec_snoc_eq_some.mp h
    rw [map_append]
    exact (ih hm).step hstep

/-! ### What a promotion leaves -/

/-- The membership view of a selector is for the checkpoint and has nodes, and each of them has
acknowledged the checkpoint at the view's epoch. -/
def Activated (s : EphemeralServiceImpl) (tableName : String) (extension : Option String)
    (checkpointId : String) : Prop :=
  ∃ view, s.getCutoverMembershipView tableName extension = some view ∧
    view.targetCheckpointId = checkpointId ∧ view.requiredNodeIds ≠ [] ∧
    ∀ nodeId ∈ view.requiredNodeIds, ∃ ack, s.activationAck tableName extension nodeId = some ack ∧
      ack.checkpointId = checkpointId ∧ ack.epoch = view.epoch

/-- A selector whose active checkpoint is its latest one and is backed by acknowledgements. -/
structure Promoted (s : EphemeralServiceImpl) (tableName : String) (extension : Option String)
    (checkpointId : String) : Prop where
  latest : s.getLatestMaterializedCheckpointSync tableName extension = some checkpointId
  active : s.getPublishedCheckpointSync .active tableName extension = some checkpointId
  ready : s.readinessMatchesTarget tableName extension checkpointId = true
  activated : s.Activated tableName extension checkpointId

theorem CutoverFrame.getLatest (h : CutoverFrame touched s s') (tableName : String) (extension : Option String) :
    s'.getLatestMaterializedCheckpointSync tableName extension =
      s.getLatestMaterializedCheckpointSync tableName extension := by
  have hname : s'.realTableName tableName = s.realTableName tableName := by
    rw [realTableName, realTableName, h.aliases]
  unfold getLatestMaterializedCheckpointSync
  rw [h.frontiers, hname]

theorem readinessMatchesTarget_congr {target : String}
    (h : s'.artifactReadinessAcks.lookup (selectorGroupKey tableName extension) =
      s.artifactReadinessAcks.lookup (selectorGroupKey tableName extension)) :
    s'.readinessMatchesTarget tableName extension target = s.readinessMatchesTarget tableName extension target := by
  unfold readinessMatchesTarget
  rw [h]

theorem activationMatchesTarget_spec (s : EphemeralServiceImpl) (now : Int) (tableName : String)
    (extension : Option String) (target : String) :
    (s.activationMatchesTarget now tableName extension target).2.artifactReadinessAcks = s.artifactReadinessAcks ∧
      ((s.activationMatchesTarget now tableName extension target).1 = true →
        (s.activationMatchesTarget now tableName extension target).2.Activated tableName extension
          target) := by
  unfold activationMatchesTarget
  dsimp only
  generalize hs : (s.backfillCutoverMembershipForTarget now tableName extension
    target).maybeReconfigureCutoverMembershipForTarget now tableName extension target = t
  have hreadiness : t.artifactReadinessAcks = s.artifactReadinessAcks := by
    subst hs
    trans (s.backfillCutoverMembershipForTarget now tableName extension target).artifactReadinessAcks
    · unfold maybeReconfigureCutoverMembershipForTarget
      dsimp only
      repeat' split
      all_goals rfl
    · unfold backfillCutoverMembershipForTarget
      dsimp only
      repeat' split
      all_goals rfl
  split
  · exact ⟨hreadiness, nofun⟩
  rename_i view hview
  split
  · exact ⟨hreadiness, nofun⟩
  rename_i hfor
  obtain ⟨htarget, hnodes⟩ := not_or.mp hfor
  split
  · exact ⟨hreadiness, nofun⟩
  rename_i acks hacks
  refine ⟨hreadiness, fun hall => ⟨view, hview, not_not.mp htarget, hnodes, ?_⟩⟩
  intro nodeId hmem
  obtain ⟨ack, hack, hfields⟩ := Run.of_any (all_eq_true.mp hall nodeId hmem)
  simp only [Bool.and_eq_true, decide_eq_true_eq] at hfields
  refine ⟨ack, ?_, hfields.1, hfields.2⟩
  rw [activationAck, hacks]
  exact hack

/-- **What a promotion does**: it publishes nothing, or it publishes the latest checkpoint of the
selector, backed by acknowledgements. -/
theorem promoteActiveCheckpointIfReady_cases (s : EphemeralServiceImpl) (now : Int) (tableName : String)
    (extension : Option String) :
    (s.promoteActiveCheckpointIfReady now tableName extension).2.publishedCheckpointId = s.publishedCheckpointId ∨
      ∃ checkpointId, (s.promoteActiveCheckpointIfReady now tableName extension).2.publishedCheckpointId =
          s.publishedCheckpointId.insert (selectorStorageKey .active tableName extension) checkpointId ∧
        (s.promoteActiveCheckpointIfReady now tableName extension).2.Promoted tableName extension
          checkpointId := by
  unfold promoteActiveCheckpointIfReady
  split
  · exact Or.inl rfl
  rename_i target htarget
  split
  · exact Or.inl rfl
  split
  · exact Or.inl rfl
  rename_i hready
  have hops : ViewOps now (Selects tableName extension) s
      (s.activationMatchesTarget now tableName extension target).2 :=
    viewOps_activationMatchesTarget s now ⟨rfl, rfl⟩ target
  have hcatalog := catalog_of_viewOps hops
  have hframe := CutoverFrame.of_viewOps hops
  obtain ⟨hreadiness, hactivated⟩ := s.activationMatchesTarget_spec now tableName extension target
  split
  · rename_i t heq
    rw [heq] at hcatalog
    exact Or.inl (congrArg CheckpointCatalog.publishedCheckpointId hcatalog)
  rename_i t heq
  rw [heq] at hcatalog hframe hreadiness hactivated
  have hpublished : t.publishedCheckpointId = s.publishedCheckpointId :=
    congrArg CheckpointCatalog.publishedCheckpointId hcatalog
  refine Or.inr ⟨target, by rw [← hpublished]; rfl, ?_, ?_, ?_, hactivated rfl⟩
  · exact (hframe.getLatest tableName extension).trans htarget
  · exact AList.lookup_insert _
  · have hready' : s.readinessMatchesTarget tableName extension target = true := by
      simpa using hready
    exact (readinessMatchesTarget_congr (congrArg (AList.lookup _) hreadiness)).trans hready'

/-! ### Promotions last through an update -/

theorem Promoted.of_frame {checkpointId : String} (h : s.Promoted tableName extension checkpointId)
    (hframe : CutoverFrame touched s s')
    (hother : ∀ t e, touched t e → selectorGroupKey tableName extension ≠ selectorGroupKey t e)
    (hactive : s'.getPublishedCheckpointSync .active tableName extension =
      s.getPublishedCheckpointSync .active tableName extension) :
    s'.Promoted tableName extension checkpointId := by
  have hat := hframe.others _ hother
  simp only [coordinationAt, Prod.mk.injEq] at hat
  obtain ⟨hview, hactivations, hreadiness⟩ := hat
  refine ⟨(hframe.getLatest tableName extension).trans h.latest, hactive.trans h.active,
    (readinessMatchesTarget_congr hreadiness).trans h.ready, ?_⟩
  obtain ⟨view, hlookup, hfor, hnodes, hacks⟩ := h.activated
  refine ⟨view, hview.trans hlookup, hfor, hnodes, fun nodeId hmem => ?_⟩
  obtain ⟨ack, hack, hfields⟩ := hacks nodeId hmem
  refine ⟨ack, ?_, hfields⟩
  rw [activationAck, hactivations]
  exact hack

theorem getPublished_advanceTargetCheckpoint (s : EphemeralServiceImpl) (now : Int)
    (tableName : String) (extension : Option String) :
    (s.advanceTargetCheckpoint now tableName extension).2.publishedCheckpointId = s.publishedCheckpointId :=
  have hops : ViewOps now (Selects tableName extension) s (s.advanceTargetCheckpoint now tableName extension).2 :=
    viewOps_advanceTarget s now ⟨rfl, rfl⟩
  congrArg CheckpointCatalog.publishedCheckpointId (catalog_of_viewOps hops)

section

variable {tableName' : String} {extension' : Option String} {checkpointId : String}

section

variable (h : s.Promoted tableName extension checkpointId)

include h

theorem Promoted.advance_self (now : Int) : (s.advanceTargetCheckpoint now tableName extension).2 = s := by
  obtain ⟨view, hview, hfor, -, -⟩ := h.activated
  unfold advanceTargetCheckpoint
  rw [h.latest]
  dsimp only
  rw [hview, map_some, hfor, if_neg (by simp), captureCutoverMembershipForTarget, hview, if_pos (by simp [hfor])]

theorem Promoted.promote_self (now : Int) : (s.promoteActiveCheckpointIfReady now tableName extension).2 = s := by
  unfold promoteActiveCheckpointIfReady
  rw [h.latest]
  dsimp only
  rw [if_pos h.active]

theorem Promoted.advance (he : PlainExtension extension) (he' : PlainExtension extension') (now : Int) :
    (s.advanceTargetCheckpoint now tableName' extension').2.Promoted tableName extension
      checkpointId := by
  by_cases hkey : selectorGroupKey tableName extension = selectorGroupKey tableName' extension'
  · obtain ⟨rfl, rfl⟩ := selectorGroupKey_inj he he' hkey
    rw [h.advance_self now]
    exact h
  have hops : ViewOps now (Selects tableName' extension') s (s.advanceTargetCheckpoint now tableName' extension').2 :=
    viewOps_advanceTarget s now ⟨rfl, rfl⟩
  refine h.of_frame (.of_viewOps hops) (fun t e hsel => hsel.1 ▸ hsel.2 ▸ hkey) ?_
  exact congrArg (AList.lookup _) (s.getPublished_advanceTargetCheckpoint now tableName' extension')

theorem Promoted.promote (he : PlainExtension extension) (he' : extension' ∈ [none, some "es"]) (now : Int) :
    (s.promoteActiveCheckpointIfReady now tableName' extension').2.Promoted tableName extension
      checkpointId := by
  by_cases hkey : selectorGroupKey tableName extension = selectorGroupKey tableName' extension'
  · obtain ⟨rfl, rfl⟩ := selectorGroupKey_inj he (plainExtension_of_updated he') hkey
    rw [h.promote_self now]
    exact h
  have hops : CutoverOps ⟨now, .updateAllCheckpoints⟩ (Selects tableName' extension') s
      (s.promoteActiveCheckpointIfReady now tableName' extension').2 :=
    cutoverOps_promote rfl s ⟨rfl, rfl⟩ he'
  refine h.of_frame (.of_ops hops) (fun t e hsel => hsel.1 ▸ hsel.2 ▸ hkey) ?_
  unfold getPublishedCheckpointSync
  rcases s.promoteActiveCheckpointIfReady_cases now tableName' extension' with hsame | ⟨id, hset, -⟩
  · rw [hsame]
  · rw [hset, AList.lookup_insert_ne fun heq => hkey (selectorGroupKey_of_storageKey heq)]

end

end

/-- What is active is what was active before, or was promoted since. -/
def ActiveKept (s s' : EphemeralServiceImpl) : Prop :=
  ∀ tableName extension, PlainExtension extension → s'.getPublishedCheckpointSync .active tableName extension =
        s.getPublishedCheckpointSync .active tableName extension ∨
      ∃ checkpointId, s'.Promoted tableName extension checkpointId

theorem ActiveKept.of_published (h : s'.publishedCheckpointId = s.publishedCheckpointId) : ActiveKept s s' :=
  fun _ _ _ => Or.inl (congrArg (AList.lookup _) h)

theorem ActiveKept.advance (h : ActiveKept s₀ s) (now : Int) (tableName : String) (he : PlainExtension extension) :
    ActiveKept s₀ (s.advanceTargetCheckpoint now tableName extension).2 := by
  intro t e hplain
  rcases h t e hplain with hsame | ⟨id, hpromoted⟩
  · left
    rw [← hsame]
    exact congrArg (AList.lookup _) (s.getPublished_advanceTargetCheckpoint now tableName extension)
  · exact Or.inr ⟨id, hpromoted.advance hplain he now⟩

theorem ActiveKept.promote (h : ActiveKept s₀ s) (now : Int) (tableName : String) (he : extension ∈ [none, some "es"]) :
    ActiveKept s₀ (s.promoteActiveCheckpointIfReady now tableName extension).2 := by
  intro t e hplain
  rcases h t e hplain with hsame | ⟨id, hpromoted⟩
  · rcases s.promoteActiveCheckpointIfReady_cases now tableName extension with hkeep | ⟨id, hset, hnew⟩
    · left
      rw [← hsame]
      exact congrArg (AList.lookup _) hkeep
    by_cases hkey : selectorStorageKey .active t e = selectorStorageKey .active tableName extension
    · obtain ⟨rfl, rfl⟩ := selectorGroupKey_inj hplain (plainExtension_of_updated he)
        (selectorGroupKey_of_storageKey hkey)
      exact Or.inr ⟨id, hnew⟩
    · left
      rw [← hsame]
      unfold getPublishedCheckpointSync
      rw [hset, AList.lookup_insert_ne hkey]
  · exact Or.inr ⟨id, hpromoted.promote hplain he now⟩

theorem ActiveKept.updateCheckpointsOf (h : ActiveKept s₀ s) (now : Int)
    (tableName : String) : ActiveKept s₀ (s.updateCheckpointsOf now tableName).2 := by
  obtain ⟨mid, hmid, heq⟩ := s.exists_updateCheckpointsOf now tableName (P := ActiveKept s₀)
    (fun m e he h => h.advance now tableName (plainExtension_of_updated (mem_pair.mpr he)))
    (fun m e he h => h.promote now tableName (mem_pair.mpr he)) h
  rw [heq]
  split
  · exact hmid
  · -- Only the request is dropped.
    intro t e hplain
    refine (hmid t e hplain).imp_right fun ⟨id, hpromoted⟩ => ⟨id, ?_⟩
    exact ⟨hpromoted.latest, hpromoted.active, hpromoted.ready, hpromoted.activated⟩

theorem activeKept_updateAllCheckpoints (s : EphemeralServiceImpl) (now : Int) :
    ActiveKept s (s.updateAllCheckpoints now).2 := by
  refine foldlRecOn _ _ (motive := fun p : Bool × EphemeralServiceImpl => ActiveKept s p.2) (.of_published rfl)
    fun p h request _ => ?_
  exact h.updateCheckpointsOf now request.tableName

/-! ### Promotion safety -/

theorem active_of_not_update (hcall : c.call ≠ .updateAllCheckpoints) (hstep : s.step c = some s')
    (tableName : String) (extension : Option String) :
    s'.getPublishedCheckpointSync .active tableName extension =
      s.getPublishedCheckpointSync .active tableName extension := by
  cases hcoord : c.call.isCoordination with
  | false =>
    exact congrArg (fun coord => AList.lookup _ (Coordination.publishedCheckpointId coord))
      (step_commitFrame hcoord hstep).coordination
  | true =>
    cases step_coordinationStep hcoord hstep with
    | heartbeat _ heq | activation _ heq | readiness _ heq =>
      rw [heq]
      rfl
    | ops hops =>
      clear hstep
      induction hops with
      | refl => rfl
      | tail _ hop ih =>
        refine Eq.trans ?_ ih
        cases hop with
        | view hview =>
          exact congrArg (fun cat => AList.lookup _ (CheckpointCatalog.publishedCheckpointId cat))
            (catalog_of_viewOps (.single hview))
        | planTarget target ht =>
          refine AList.lookup_insert_ne fun h => ?_
          have hhead := congrArg (fun key => key.toList.head?) h
          simp [selectorStorageKey, roleKey, String.toList_append] at hhead
        | promote hupdate => exact absurd hupdate hcall
        | dropRequest => rfl

/-- A selector that a key gives back is the one with the key. -/
def NamesSelector (selector : PublishedCheckpointSelector) (tableName : String) (extension : Option String) : Prop :=
  PlainExtension selector.extension → selector.tableName = tableName ∧ selector.extension = extension

/-- A checkpoint of a selector is backed by acknowledgements that the calls have recorded for the
selector: every class that the extension requires has a readiness acknowledgement for the checkpoint;
the membership view is for the checkpoint, has nodes, and each of them has an activation acknowledgement
for the checkpoint at the view's epoch. -/
structure Backed (calls : List ServiceCall) (s : EphemeralServiceImpl) (tableName : String)
    (extension : Option String) (checkpointId : String) : Prop where
  readiness : ∀ artifactClass ∈ requiredArtifactClasses extension, ∃ ack,
    s.readinessAck tableName extension artifactClass = some ack ∧
    ack.artifactClass = artifactClass ∧ ack.checkpointId = checkpointId ∧
    .recordArtifactReadiness ack ∈ calls ∧ NamesSelector ack.selector tableName extension
  activation : ∃ view, s.getCutoverMembershipView tableName extension = some view ∧
    view.targetCheckpointId = checkpointId ∧ view.requiredNodeIds ≠ [] ∧
    ∀ nodeId ∈ view.requiredNodeIds, ∃ ack, s.activationAck tableName extension nodeId = some ack ∧
      ack.nodeId = nodeId ∧ ack.checkpointId = checkpointId ∧ ack.epoch = view.epoch ∧
      .recordServingNodeActivation ack ∈ calls ∧ NamesSelector ack.selector tableName extension

/-- **Promotion safety.** When the active checkpoint of a selector changes to a checkpoint in a run, the
call was an update of the checkpoints, and in the state it leaves the checkpoint is backed by
acknowledgements recorded before it. -/
theorem promotion_of_exec {mode : CompactionMode} {ids : IdInstance} {calls : List TimedCall}
    {c : TimedCall} {tableName : String} {extension : Option String} {checkpointId : String}
    (hrun : Run.exec step (new mode ids) calls = some s) (hstep : s.step c = some s')
    (hplain : PlainExtension extension)
    (hbefore : s.getPublishedCheckpointSync .active tableName extension ≠ some checkpointId)
    (hafter : s'.getPublishedCheckpointSync .active tableName extension = some checkpointId) :
    c.call = .updateAllCheckpoints ∧ Backed (calls.map (·.call)) s' tableName extension checkpointId := by
  have hcall : c.call = .updateAllCheckpoints := by
    by_contra hne
    rw [active_of_not_update hne hstep] at hafter
    exact hbefore hafter
  refine ⟨hcall, ?_⟩
  obtain ⟨now, call⟩ := c
  subst hcall
  obtain ⟨⟨result, t⟩, hanswer, rfl⟩ := map_eq_some_iff.mp hstep
  rw [answer_updateAllCheckpoints] at hanswer
  cases hanswer
  have hops : CutoverOps ⟨now, .updateAllCheckpoints⟩ _ s (s.updateAllCheckpoints now).2 :=
    cutoverOps_updateAllCheckpoints rfl s
  have hframe := CutoverFrame.of_ops hops
  have hrecorded := (recorded_of_exec hrun).of_sub hframe.readiness hframe.activations
  have hkept := s.activeKept_updateAllCheckpoints now tableName extension hplain
  have hnames : ∀ selector : PublishedCheckpointSelector,
      selectorGroupKey selector.tableName selector.extension = selectorGroupKey tableName extension →
        NamesSelector selector tableName extension :=
    fun selector hkey he => selectorGroupKey_inj he hplain hkey
  rcases hkept with hsame | ⟨id, hpromoted⟩
  · exact absurd (hsame.symm.trans hafter) hbefore
  obtain rfl : id = checkpointId := some.inj (hpromoted.active.symm.trans hafter)
  refine ⟨fun artifactClass hclass => ?_, ?_⟩
  · have hready := hpromoted.ready
    unfold readinessMatchesTarget at hready
    split at hready
    · cases hready
    rename_i acks hacks
    obtain ⟨ack, hack, hid⟩ := Run.of_any (all_eq_true.mp hready artifactClass hclass)
    obtain ⟨hofClass, hkey, hcalled⟩ := hrecorded.readiness _ acks artifactClass ack hacks hack
    refine ⟨ack, ?_, hofClass, of_decide_eq_true hid, hcalled, hnames _ hkey⟩
    rw [readinessAck, hacks]
    exact hack
  · obtain ⟨view, hview, hfor, hnodes, hacks⟩ := hpromoted.activated
    refine ⟨view, hview, hfor, hnodes, fun nodeId hmem => ?_⟩
    obtain ⟨ack, hack, hid, hepoch⟩ := hacks nodeId hmem
    obtain ⟨acks, hlookup, hinner⟩ := bind_eq_some_iff.mp hack
    obtain ⟨hofNode, hkey, hcalled⟩ := hrecorded.activations _ acks nodeId ack hlookup hinner
    exact ⟨ack, hack, hofNode, hid, hepoch, hcalled, hnames _ hkey⟩

/-- A cutover whose first node is gone before it acknowledges: the readiness acknowledgements name the
first epoch, the activation acknowledgement of the second node the second one. -/
def replacedNodeCalls : List TimedCall :=
  let selector := .forTarget "t" none
  [⟨0, .addCheckpoint { tableName := "t", checkpointId := "c", schema := .minimal }⟩,
    ⟨0, .heartbeatServingNode ⟨"n1", 0, 0⟩⟩,
    ⟨0, .updateAllCheckpoints⟩,
    ⟨0, .recordArtifactReadiness ⟨selector, "c", 1, .snapshotLookupMmap, "b", 0⟩⟩,
    ⟨0, .recordArtifactReadiness ⟨selector, "c", 1, .snapshotExactLookupMmap, "b", 0⟩⟩,
    ⟨100000, .heartbeatServingNode ⟨"n2", 1, 100000⟩⟩,
    ⟨100000, .updateAllCheckpoints⟩,
    ⟨100000, .recordServingNodeActivation ⟨selector, "n2", 2, "c", 100000⟩⟩]

theorem replacedNodeCalls_promotes : ∃ s s', Run.exec step (new .disabled .counting) replacedNodeCalls = some s ∧
      s.step ⟨100000, .updateAllCheckpoints⟩ = some s' ∧
      s.getPublishedCheckpointSync .active "t" none = none ∧
      s'.getPublishedCheckpointSync .active "t" none = some "c" ∧
      s'.getCutoverMembershipView "t" none = some ⟨.forTarget "t" none, 2, "c", ["n2"]⟩ ∧
      s'.readinessAck "t" none .snapshotLookupMmap =
        some ⟨.forTarget "t" none, "c", 1, .snapshotLookupMmap, "b", 0⟩ := by
  simp only [exists_and_left]
  decide +kernel

theorem promotion_of_exec_replacedNode : ∃ s s', Run.exec step (new .disabled .counting) replacedNodeCalls = some s ∧
      s.step ⟨100000, .updateAllCheckpoints⟩ = some s' ∧
      s'.getPublishedCheckpointSync .active "t" none = some "c" ∧
      Backed (replacedNodeCalls.map (·.call)) s' "t" none "c" := by
  obtain ⟨s, s', hs, hs', hbefore, hafter, -, -⟩ := replacedNodeCalls_promotes
  have hchange : s.getPublishedCheckpointSync .active "t" none ≠ some "c" := by
    rw [hbefore]
    exact nofun
  exact ⟨s, s', hs, hs', hafter, (promotion_of_exec hs hs' (by decide) hchange hafter).2⟩

/-- A step promotes only on readiness acknowledgements of the view's epoch. -/
def PromotesAtEpoch (s s' : EphemeralServiceImpl) : Prop :=
  ∀ tableName extension checkpointId, s.getPublishedCheckpointSync .active tableName extension ≠ some checkpointId →
    s'.getPublishedCheckpointSync .active tableName extension = some checkpointId →
    ∃ view, s'.getCutoverMembershipView tableName extension = some view ∧
      ∀ artifactClass ∈ requiredArtifactClasses extension, ∃ ack,
        s'.readinessAck tableName extension artifactClass = some ack ∧
        ack.checkpointId = checkpointId ∧ ack.epoch = view.epoch

/-- A readiness acknowledgement of an older epoch counts. -/
theorem not_promotesAtEpoch_replacedNode : ∃ s s', Run.exec step (new .disabled .counting) replacedNodeCalls = some s ∧
      s.step ⟨100000, .updateAllCheckpoints⟩ = some s' ∧ ¬ PromotesAtEpoch s s' := by
  obtain ⟨s, s', hs, hs', hbefore, hafter, hview, hack⟩ := replacedNodeCalls_promotes
  refine ⟨s, s', hs, hs', fun hclaim => ?_⟩
  obtain ⟨view, hview', hready⟩ := hclaim "t" none "c" (by rw [hbefore]; exact nofun) hafter
  obtain ⟨ack, hack', -, hepoch⟩ := hready .snapshotLookupMmap (by decide)
  rw [hview] at hview'
  rw [hack] at hack'
  cases hview'
  cases hack'
  cases hepoch

end EphemeralServiceImpl

end PowdrrEngine
