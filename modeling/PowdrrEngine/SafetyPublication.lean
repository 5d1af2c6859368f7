import PowdrrEngine.SafetyUpdate

/-! The queue of publication requests. An update works on every table that is queued and drops the request
of a table for which nothing is pending any more. What it looks at is not quite what is pending: the
planned targets and the extensions besides `"es"` are not looked at, and the list of the checkpoints
that wait for `"es"` counts as pending even when it is empty. -/

namespace PowdrrEngine

open List

namespace EphemeralServiceImpl

variable {s s' : EphemeralServiceImpl} {tableName : String} {extension : Option String}
  {touched : String → Option String → Prop} {c : TimedCall}

/-! ### Pending work -/

section

variable (s tableName extension)

def CommittedPending : Prop :=
  ∃ id, s.getLatestMaterializedCheckpointSync tableName extension = some id ∧
    s.getPublishedCheckpointSync .active tableName extension ≠ some id

def TargetPending : Prop :=
  ∃ id, s.getPublishedCheckpointSync .target tableName extension = some id ∧
    s.getPublishedCheckpointSync .active tableName extension ≠ some id

def CoveragePending : Prop :=
  ∃ e, extension = some e ∧ s.checkpointsNeedingExtensionWork.getD (extensionWorkKey tableName e) [] ≠ []

def PendingFor : Prop :=
  s.CommittedPending tableName extension ∨ s.TargetPending tableName extension ∨ s.CoveragePending tableName extension

def Pending : Prop := ∃ extension, s.PendingFor tableName extension

end

/-- The extensions that an update looks at. -/
def watched : List (Option String) := [none, some "es"]

/-- The selectors that an update looks at, in its order. -/
def updatedSelectors (requests : List CheckpointUpdateRequest) : List (String × Option String) :=
  requests.flatMap fun request => watched.map fun extension => (request.tableName, extension)

/-- A committed checkpoint that the update does not make active. -/
def LeftBehind (s : EphemeralServiceImpl) (now : Int) (tableName : String) (extension : Option String) : Prop :=
  ∃ id, s.getLatestMaterializedCheckpointSync tableName extension = some id ∧
    s.getPublishedCheckpointSync .active tableName extension ≠ some id ∧ ¬ s.Promotable now tableName extension id

/-- What stays pending behind an update without being looked at: a planned target that does not become active,
and what is committed, planned or waiting for another extension. -/
def Overlooked (s : EphemeralServiceImpl) (now : Int) (tableName : String) : Prop :=
  (∃ extension ∈ watched, ∃ id, s.getPublishedCheckpointSync .target tableName extension = some id ∧
    ¬ s.ActiveAfter now (updatedSelectors s.checkpointPublicationRequests.values) tableName extension id) ∨
  ∃ extension ∉ watched,
    (∃ id, (s.getLatestMaterializedCheckpointSync tableName extension = some id ∨
        s.getPublishedCheckpointSync .target tableName extension = some id) ∧
      ¬ s.ActiveAfter now (updatedSelectors s.checkpointPublicationRequests.values) tableName extension id) ∨
    s.CoveragePending tableName extension

/-- A trace of work for `"es"`: outstanding files, or a list of waiting checkpoints, empty or not. -/
def ExtensionTrace (s : EphemeralServiceImpl) (tableName : String) : Prop :=
  (∃ items tracker, s.extensionWorkItems.lookup "es" = some items ∧ items.lookup tableName = some tracker ∧
    tracker.workItem.hasWork = true) ∨
  extensionWorkKey tableName "es" ∈ s.checkpointsNeedingExtensionWork

/-- What is pending and not looked at: planned targets, and everything of the other extensions. -/
def Unwatched (s : EphemeralServiceImpl) (tableName : String) : Prop :=
  (∃ extension ∈ watched, s.TargetPending tableName extension) ∨ ∃ extension ∉ watched, s.PendingFor tableName extension

theorem publishedCheckpointNeedsActivation_iff : s.publishedCheckpointNeedsActivation tableName extension = true ↔
      s.CommittedPending tableName extension := by
  unfold publishedCheckpointNeedsActivation CommittedPending
  cases s.getLatestMaterializedCheckpointSync tableName extension with
  | none => simp
  | some id => simp

theorem checkpointPublicationStillPending_iff : s.checkpointPublicationStillPending tableName = true ↔
      s.ExtensionTrace tableName ∨ ∃ extension ∈ watched, s.CommittedPending tableName extension := by
  unfold checkpointPublicationStillPending ExtensionTrace watched
  simp only [Bool.or_eq_true, publishedCheckpointNeedsActivation_iff, decide_eq_true_eq, mem_cons,
    not_mem_nil, or_false, exists_eq_or_imp, exists_eq_left, Option.any_eq_true,
    Option.bind_eq_some_iff]
  constructor
  · rintro (((⟨tracker, ⟨items, hitems, htracker⟩, hwork⟩ | hkey) | hnone) | hes)
    · exact Or.inl (Or.inl ⟨items, tracker, hitems, htracker, hwork⟩)
    · exact Or.inl (Or.inr hkey)
    · exact Or.inr (Or.inl hnone)
    · exact Or.inr (Or.inr hes)
  rintro ((⟨items, tracker, hitems, htracker, hwork⟩ | hkey) | hnone | hes)
  · exact Or.inl (Or.inl (Or.inl ⟨tracker, ⟨items, hitems, htracker⟩, hwork⟩))
  · exact Or.inl (Or.inl (Or.inr hkey))
  · exact Or.inl (Or.inr hnone)
  · exact Or.inr hes

theorem extensionTrace_of_coveragePending (h : s.CoveragePending tableName (some "es")) :
    s.ExtensionTrace tableName := by
  obtain ⟨e, he, hwaiting⟩ := h
  cases he
  obtain ⟨waiting, hlookup, -⟩ := Dict.exists_of_getD (p := fun ids => ids ≠ []) hwaiting (by simp)
  exact Or.inr (AList.lookup_isSome.mp (Option.isSome_iff_exists.mpr ⟨waiting, hlookup⟩))

theorem pending_iff : s.Pending tableName ↔ (∃ extension ∈ watched, s.CommittedPending tableName extension) ∨
      s.CoveragePending tableName (some "es") ∨ s.Unwatched tableName := by
  constructor
  · rintro ⟨extension, hpending⟩
    by_cases hwatched : extension ∈ watched
    · rcases hpending with hcommitted | htarget | hcoverage
      · exact Or.inl ⟨extension, hwatched, hcommitted⟩
      · exact Or.inr (Or.inr (Or.inl ⟨extension, hwatched, htarget⟩))
      · obtain ⟨e, rfl, hwaiting⟩ := hcoverage
        have he : some e = some "es" := by simpa [watched] using hwatched
        cases he
        exact Or.inr (Or.inl ⟨_, rfl, hwaiting⟩)
    · exact Or.inr (Or.inr (Or.inr ⟨extension, hwatched, hpending⟩))
  · rintro (⟨extension, -, hcommitted⟩ | hcoverage | ⟨extension, -, htarget⟩ | ⟨extension, -, hpending⟩)
    · exact ⟨extension, Or.inl hcommitted⟩
    · exact ⟨_, Or.inr (Or.inr hcoverage)⟩
    · exact ⟨extension, Or.inr (Or.inl htarget)⟩
    · exact ⟨extension, hpending⟩

/-! ### The queue -/

abbrev requestKey (tableName : String) : String := checkpointPublicationRequestKey defaultMetadataNamespace tableName

theorem requestKey_injective : Function.Injective requestKey := by
  intro t t' h
  have hglue : defaultMetadataNamespace ++ "|" ++ t = defaultMetadataNamespace ++ "|" ++ t' := h
  exact (Text.glue_inj_of_notMem_left (c := '|') (by decide) (by decide) hglue).2

def QueueWf (s : EphemeralServiceImpl) : Prop :=
  ∀ key request, s.checkpointPublicationRequests.lookup key = some request → key = requestKey request.tableName

theorem QueueWf.commitOp (hop : CommitOp c s s') (h : s.QueueWf) : s'.QueueWf := by
  cases hop with
  | queue =>
    intro key request hlookup
    simp only [queuePublicationRequest, Dict.lookup_insert_eq] at hlookup
    split at hlookup
    · cases hlookup
      assumption
    · exact h key request hlookup
  | _ => exact h

theorem QueueWf.cutoverOp (hop : CutoverOp c touched s s') (h : s.QueueWf) : s'.QueueWf := by
  cases hop with
  | view hview => cases hview <;> exact h
  | dropRequest => exact fun key request hlookup => h key request (Dict.erase_sub _ _ _ _ hlookup)
  | _ => exact h

theorem QueueWf.step (hstep : s.step c = some s') (h : s.QueueWf) : s'.QueueWf := by
  cases hkind : c.call.isCoordination with
  | true =>
    cases step_coordinationStep hkind hstep with
    | ops hops =>
      clear hstep
      induction hops with
      | refl => exact h
      | tail _ hop ih => exact ih.cutoverOp hop
    | heartbeat _ heq | activation _ heq | readiness _ heq =>
      rw [heq]
      exact h
  | false =>
    have hops := step_commitOps hkind hstep
    clear hstep
    induction hops with
    | refl => exact h
    | tail _ hop ih => exact ih.commitOp hop

theorem queueWf_of_exec {mode : CompactionMode} {ids : IdInstance} {calls : List TimedCall}
    (hexec : Run.exec EphemeralServiceImpl.step (new mode ids) calls = some s) : s.QueueWf :=
  Run.exec_invariant_all (fun _ _ _ hs hstep => hs.step hstep) (fun _ _ h => by cases h) hexec

theorem QueueWf.keys_eq (h : s.QueueWf) : s.checkpointPublicationRequests.keys =
    s.checkpointPublicationRequests.values.map fun request => requestKey request.tableName := by
  unfold AList.keys List.keys Dict.values
  rw [map_map]
  refine map_congr_left fun entry hentry => ?_
  exact h entry.1 entry.2 (Dict.lookup_eq_some_iff.mpr hentry)

theorem QueueWf.nodup (h : s.QueueWf) : (s.checkpointPublicationRequests.values.map (·.tableName)).Nodup := by
  have hnodup := s.checkpointPublicationRequests.keys_nodup
  rw [h.keys_eq] at hnodup
  refine List.Nodup.of_map requestKey ?_
  rw [map_map]
  exact hnodup

theorem QueueWf.mem_iff (h : s.QueueWf) : requestKey tableName ∈ s.checkpointPublicationRequests ↔
    tableName ∈ s.checkpointPublicationRequests.values.map (·.tableName) := by
  rw [AList.mem_keys, h.keys_eq, mem_map, mem_map]
  constructor
  · rintro ⟨request, hmem, heq⟩
    exact ⟨request, hmem, requestKey_injective heq⟩
  · rintro ⟨request, hmem, rfl⟩
    exact ⟨request, hmem, rfl⟩

/-! ### One table of an update -/

theorem requests_of_viewOps {now : Int}
    (h : ViewOps now touched s s') : s'.checkpointPublicationRequests = s.checkpointPublicationRequests := by
  induction h with
  | refl => rfl
  | tail _ hop ih =>
    refine Eq.trans ?_ ih
    cases hop <;> rfl

section

variable (s) (now : Int) (t : String) (e : Option String)

theorem requests_advanceTarget : (s.advanceTargetCheckpoint now t e).2.checkpointPublicationRequests =
      s.checkpointPublicationRequests :=
  have hops : ViewOps now (Selects t e) s (s.advanceTargetCheckpoint now t e).2 :=
    viewOps_advanceTarget s now ⟨rfl, rfl⟩
  requests_of_viewOps hops

theorem requests_promote : (s.promoteActiveCheckpointIfReady now t e).2.checkpointPublicationRequests =
      s.checkpointPublicationRequests := by
  unfold promoteActiveCheckpointIfReady
  split
  · rfl
  rename_i target _
  split
  · rfl
  split
  · rfl
  · have hops : ViewOps now (Selects t e) s (s.activationMatchesTarget now t e target).2 :=
      viewOps_activationMatchesTarget s now ⟨rfl, rfl⟩ target
    have hview := requests_of_viewOps hops
    split <;> rename_i heq <;> rw [heq] at hview <;> exact hview

theorem updateCheckpointsOf_eq : ∃ mid : EphemeralServiceImpl,
    mid.checkpointPublicationRequests = s.checkpointPublicationRequests ∧ (s.updateCheckpointsOf now t).2 =
        if mid.checkpointPublicationStillPending t then mid else mid.dropPublicationRequest t := by
  exact s.exists_updateCheckpointsOf now t
    (P := fun m => m.checkpointPublicationRequests = s.checkpointPublicationRequests)
    (fun m e _ h => (m.requests_advanceTarget now t e).trans h)
    (fun m e _ h => (m.requests_promote now t e).trans h) rfl

theorem mem_requests_updateCheckpointsOf :
    requestKey t ∈ (s.updateCheckpointsOf now t).2.checkpointPublicationRequests ↔
      requestKey t ∈ s.checkpointPublicationRequests ∧
        (s.updateCheckpointsOf now t).2.checkpointPublicationStillPending t = true := by
  obtain ⟨mid, hrequests, heq⟩ := s.updateCheckpointsOf_eq now t
  rw [heq]
  split
  · rename_i hpending
    rw [hrequests, and_iff_left hpending]
  rename_i hpending
  have hsame : (mid.dropPublicationRequest t).checkpointPublicationStillPending t =
      mid.checkpointPublicationStillPending t := rfl
  refine iff_of_false (fun hmem => ?_) fun h => hpending (hsame.symm.trans h.2)
  exact (AList.mem_erase.mp hmem).1 rfl

end

theorem sameCoordination_of_ne {now : Int} {t : String} (he : extension ∈ watched) (hne : t ≠ tableName)
    (hops : CutoverOps ⟨now, .updateAllCheckpoints⟩ (UpdateTouches t) s s') :
    SameCoordination tableName extension s s' := by
  refine hops.sameCoordination ?_
  rintro t e ⟨rfl, hupdated⟩ heq
  have hplain := plainExtension_of_updated (mem_pair.mpr hupdated)
  exact hne (selectorGroupKey_inj hplain (plainExtension_of_updated he) heq).1

theorem updateCheckpointsOf_of_ne (s : EphemeralServiceImpl) (now : Int) {t : String} (hne : t ≠ tableName) :
    (requestKey tableName ∈ (s.updateCheckpointsOf now t).2.checkpointPublicationRequests ↔
      requestKey tableName ∈ s.checkpointPublicationRequests) ∧
    (s.updateCheckpointsOf now t).2.checkpointPublicationStillPending tableName =
      s.checkpointPublicationStillPending tableName := by
  have hops : CutoverOps ⟨now, .updateAllCheckpoints⟩ (UpdateTouches t) s (s.updateCheckpointsOf now t).2 :=
    cutoverOps_updateCheckpointsOf rfl s t
  have honly := hops.coordinationOnly
  have hactive : ∀ e' ∈ watched, (s.updateCheckpointsOf now t).2.publishedCheckpointNeedsActivation
      tableName e' = s.publishedCheckpointNeedsActivation tableName e' := by
    intro e' he'
    unfold publishedCheckpointNeedsActivation
    rw [(sameCoordination_of_ne he' hne hops).published, honly.getLatest]
  constructor
  · obtain ⟨mid, hrequests, heq⟩ := s.updateCheckpointsOf_eq now t
    rw [heq, ← hrequests]
    split
    · rfl
    · exact AList.mem_erase.trans (and_iff_right fun heq => hne (requestKey_injective heq).symm)
  have hwork : (s.updateCheckpointsOf now t).2.extensionWorkItems = s.extensionWorkItems := by rw [honly]
  have hwaiting : (s.updateCheckpointsOf now t).2.checkpointsNeedingExtensionWork =
      s.checkpointsNeedingExtensionWork := by rw [honly]
  unfold checkpointPublicationStillPending
  rw [hwork, hwaiting, hactive none (by decide), hactive (some "es") (by decide)]

/-! ### The update -/

/-- The states of the loop of an update. -/
def updateTables (now : Int) (s : EphemeralServiceImpl) (requests : List CheckpointUpdateRequest) :
    EphemeralServiceImpl :=
  requests.foldl (fun s request => (s.updateCheckpointsOf now request.tableName).2) s

theorem updateAllCheckpoints_eq (s : EphemeralServiceImpl) (now : Int) :
    (s.updateAllCheckpoints now).2 = updateTables now s s.checkpointPublicationRequests.values :=
  (foldl_hom Prod.snd fun _ _ => rfl).symm

theorem updateTables_of_notMem (now : Int) (requests : List CheckpointUpdateRequest)
    (s : EphemeralServiceImpl) (hother : tableName ∉ requests.map (·.tableName)) :
    (requestKey tableName ∈ (updateTables now s requests).checkpointPublicationRequests ↔
      requestKey tableName ∈ s.checkpointPublicationRequests) ∧
    (updateTables now s requests).checkpointPublicationStillPending tableName =
      s.checkpointPublicationStillPending tableName := by
  induction requests generalizing s with
  | nil => exact ⟨Iff.rfl, rfl⟩
  | cons request requests ih =>
    rw [map_cons, mem_cons, not_or] at hother
    obtain ⟨hkept, htest⟩ := s.updateCheckpointsOf_of_ne now (Ne.symm hother.1)
    rw [updateTables, foldl_cons]
    generalize (s.updateCheckpointsOf now request.tableName).2 = next at hkept htest ⊢
    obtain ⟨hkept', htest'⟩ := ih next hother.2
    exact ⟨hkept'.trans hkept, htest'.trans htest⟩

theorem updateTables_of_mem (now : Int) (requests : List CheckpointUpdateRequest)
    (s : EphemeralServiceImpl) (hmem : tableName ∈ requests.map (·.tableName))
    (hnodup : (requests.map (·.tableName)).Nodup)
    (hqueued : requestKey tableName ∈ s.checkpointPublicationRequests) :
    requestKey tableName ∈ (updateTables now s requests).checkpointPublicationRequests ↔
      (updateTables now s requests).checkpointPublicationStillPending tableName = true := by
  induction requests generalizing s with
  | nil => cases hmem
  | cons request requests ih =>
    rw [map_cons, nodup_cons] at hnodup
    rw [updateTables, foldl_cons]
    by_cases heq : request.tableName = tableName
    · -- the table itself: the rest of the loop is about other tables
      subst heq
      have hself := s.mem_requests_updateCheckpointsOf now request.tableName
      rw [and_iff_right hqueued] at hself
      generalize (s.updateCheckpointsOf now request.tableName).2 = next at hself ⊢
      obtain ⟨hkept, htest⟩ := updateTables_of_notMem now requests next hnodup.1
      exact hkept.trans (hself.trans (Bool.eq_iff_iff.mp htest).symm)
    · obtain ⟨hkept, -⟩ := s.updateCheckpointsOf_of_ne now heq
      generalize (s.updateCheckpointsOf now request.tableName).2 = next at hkept ⊢
      exact ih next (mem_of_ne_of_mem (Ne.symm heq) hmem) hnodup.2 (hkept.mpr hqueued)

/-! ### What the update makes active -/

theorem selectorGroupKey_none_ne_es (t : String) : selectorGroupKey t none ≠ selectorGroupKey t (some "es") :=
  fun h => by cases (selectorGroupKey_inj (by decide) (by decide) h).2

section

variable (s) (now : Int) (t : String) (e : Option String)

theorem cutoverOps_updateSelector (he : e ∈ watched) :
    CutoverOps ⟨now, .updateAllCheckpoints⟩ (Selects t e) s (s.updateSelector now t e) :=
  have hadvance : ViewOps now (Selects t e) s (s.advanceTargetCheckpoint now t e).2 :=
    viewOps_advanceTarget s now ⟨rfl, rfl⟩
  hadvance.cutoverOps.trans (cutoverOps_promote rfl _ ⟨rfl, rfl⟩ he)

theorem published_updateCheckpointsOf : (s.updateCheckpointsOf now t).2.publishedCheckpointId =
    ((s.updateSelector now t none).updateSelector now t (some "es")).publishedCheckpointId := by
  obtain ⟨mid, hmid, heq⟩ : ∃ mid, mid = (s.updateSelector now t none).updateSelector now t (some "es") ∧
      (s.updateCheckpointsOf now t).2 =
        if mid.checkpointPublicationStillPending t then mid else mid.dropPublicationRequest t := ⟨_, rfl, rfl⟩
  rw [heq, ← hmid]
  split <;> rfl

theorem target_updateSelector : (s.updateSelector now t e).getPublishedCheckpointSync .target tableName extension =
    s.getPublishedCheckpointSync .target tableName extension := by
  unfold getPublishedCheckpointSync
  rcases s.published_updateSelector now t e with ⟨id, -, hpublished⟩ | ⟨-, hpublished⟩
  · rw [hpublished, AList.lookup_insert_ne]
    rw [selectorStorageKey_eq, selectorStorageKey_eq]
    exact fun heq => PublishedCheckpointRole.noConfusion (roleKey_bar_inj heq)
  · rw [hpublished]

theorem activeAfter_updateCheckpointsOf {id : String} :
    (s.updateCheckpointsOf now t).2.getPublishedCheckpointSync .active tableName extension = some id ↔
      s.ActiveAfter now (watched.map fun e => (t, e)) tableName extension id := by
  have hfirst : s.ActiveAfter now (watched.map fun e => (t, e)) tableName extension id ↔
      (s.updateSelector now t none).ActiveAfter now [(t, some "es")] tableName extension id := by
    refine (activeAfter_append (fun id => activeAfter_updateSelector t none) ?_ ?_).symm
    · intro selector hselector id
      obtain rfl := mem_singleton.mp hselector
      have hops := s.cutoverOps_updateSelector now t none (by decide)
      refine promotable_congr (hops.sameCoordination ?_) (hops.coordinationOnly.getLatest _ _) (liveNodes_of_cutoverOps hops)
      rintro _ _ ⟨rfl, rfl⟩
      exact selectorGroupKey_none_ne_es _
    · intro a ha b hb
      obtain rfl := mem_singleton.mp ha
      obtain rfl := mem_singleton.mp hb
      exact selectorGroupKey_none_ne_es t
  rw [hfirst, ← activeAfter_updateSelector]
  unfold getPublishedCheckpointSync
  rw [published_updateCheckpointsOf]

theorem target_updateCheckpointsOf :
    (s.updateCheckpointsOf now t).2.getPublishedCheckpointSync .target tableName extension =
      s.getPublishedCheckpointSync .target tableName extension := by
  rw [← s.target_updateSelector now t none, ← (s.updateSelector now t none).target_updateSelector now t (some "es")]
  unfold getPublishedCheckpointSync
  rw [published_updateCheckpointsOf]

end

theorem target_updateTables (now : Int) (requests : List CheckpointUpdateRequest) (s : EphemeralServiceImpl) :
    (updateTables now s requests).getPublishedCheckpointSync .target tableName extension =
      s.getPublishedCheckpointSync .target tableName extension := by
  induction requests generalizing s with
  | nil => rfl
  | cons request requests ih =>
    rw [updateTables, foldl_cons]
    exact (ih _).trans (s.target_updateCheckpointsOf now request.tableName)

theorem activeAfter_updateTables (now : Int) (requests : List CheckpointUpdateRequest) (s : EphemeralServiceImpl)
    (hnodup : (requests.map (·.tableName)).Nodup) {id : String} :
    (updateTables now s requests).getPublishedCheckpointSync .active tableName extension = some id ↔
      s.ActiveAfter now (updatedSelectors requests) tableName extension id := by
  induction requests generalizing s with
  | nil => simp [updateTables, updatedSelectors, ActiveAfter]
  | cons request requests ih =>
    rw [map_cons, nodup_cons] at hnodup
    rw [updateTables, foldl_cons]
    refine (ih _ hnodup.2).trans ?_
    have hcons : updatedSelectors (request :: requests) =
        (watched.map fun e => (request.tableName, e)) ++ updatedSelectors requests := flatMap_cons
    rw [hcons]
    have hrest : ∀ selector ∈ updatedSelectors requests, selector.1 ≠ request.tableName ∧ selector.2 ∈ watched := by
      intro selector hselector
      obtain ⟨other, hother, hselector⟩ := mem_flatMap.mp hselector
      obtain ⟨e, he, rfl⟩ := mem_map.mp hselector
      exact ⟨fun heq => hnodup.1 (heq ▸ mem_map_of_mem hother), he⟩
    have hactive : ∀ id, (s.updateCheckpointsOf now request.tableName).2.getPublishedCheckpointSync .active tableName
        extension = some id ↔ s.ActiveAfter now (watched.map fun e => (request.tableName, e)) tableName extension id :=
      fun id => s.activeAfter_updateCheckpointsOf now request.tableName
    have hops : CutoverOps ⟨now, .updateAllCheckpoints⟩ (UpdateTouches request.tableName) s
        (s.updateCheckpointsOf now request.tableName).2 := cutoverOps_updateCheckpointsOf rfl s request.tableName
    generalize (s.updateCheckpointsOf now request.tableName).2 = next at hactive hops ⊢
    refine activeAfter_append hactive ?_ ?_
    · intro selector hselector id
      obtain ⟨hne, he⟩ := hrest selector hselector
      have hlive : next.liveNodes now = s.liveNodes now := liveNodes_of_cutoverOps hops
      exact promotable_congr (sameCoordination_of_ne he hne.symm hops) (hops.coordinationOnly.getLatest _ _) hlive
    · intro a ha b hb hkey
      obtain ⟨e, he, rfl⟩ := mem_map.mp ha
      obtain ⟨hne, he'⟩ := hrest b hb
      exact hne (selectorGroupKey_inj (plainExtension_of_updated he) (plainExtension_of_updated he') hkey).1.symm

/-- A selector that the update looks at. -/
theorem activeAfter_watched (hwf : s.QueueWf) (hqueued : requestKey tableName ∈ s.checkpointPublicationRequests)
    (he : extension ∈ watched) {now : Int} {id : String} :
    s.ActiveAfter now (updatedSelectors s.checkpointPublicationRequests.values) tableName extension id ↔
      s.Promotable now tableName extension id ∨ (s.getPublishedCheckpointSync .active tableName extension = some id ∧
        ∀ other, ¬ s.Promotable now tableName extension other) := by
  have hself : (tableName, extension) ∈ updatedSelectors s.checkpointPublicationRequests.values := by
    obtain ⟨request, hrequest, rfl⟩ := mem_map.mp (hwf.mem_iff.mp hqueued)
    exact mem_flatMap.mpr ⟨request, hrequest, mem_map_of_mem he⟩
  have honly : ∀ selector ∈ updatedSelectors s.checkpointPublicationRequests.values,
      keyOf selector = selectorGroupKey tableName extension → selector = (tableName, extension) := by
    intro selector hselector hkey
    obtain ⟨request, -, hselector⟩ := mem_flatMap.mp hselector
    obtain ⟨e, he', rfl⟩ := mem_map.mp hselector
    obtain ⟨rfl, rfl⟩ := selectorGroupKey_inj (plainExtension_of_updated he') (plainExtension_of_updated he) hkey
    rfl
  unfold ActiveAfter
  constructor
  · rintro (⟨selector, hselector, hkey, hpromotable⟩ | ⟨hactive, hnone⟩)
    · obtain rfl := honly selector hselector hkey
      exact Or.inl hpromotable
    · exact Or.inr ⟨hactive, hnone _ hself rfl⟩
  · rintro (hpromotable | ⟨hactive, hnone⟩)
    · exact Or.inl ⟨_, hself, rfl, hpromotable⟩
    · refine Or.inr ⟨hactive, fun selector hselector hkey => ?_⟩
      obtain rfl := honly selector hselector hkey
      exact hnone

section

variable {now : Int} (hwf : s.QueueWf) (hstep : s.step ⟨now, .updateAllCheckpoints⟩ = some s')

include hwf hstep

omit hwf in
theorem updateTables_of_step : updateTables now s s.checkpointPublicationRequests.values = s' := by
  rw [step, answer_updateAllCheckpoints] at hstep
  rw [← updateAllCheckpoints_eq]
  exact Option.some.inj hstep

theorem active_of_update {id : String} : s'.getPublishedCheckpointSync .active tableName extension = some id ↔
    s.ActiveAfter now (updatedSelectors s.checkpointPublicationRequests.values) tableName extension id := by
  rw [← updateTables_of_step hstep]
  exact activeAfter_updateTables now _ s hwf.nodup

omit hwf in
theorem target_of_update : s'.getPublishedCheckpointSync .target tableName extension =
    s.getPublishedCheckpointSync .target tableName extension := by
  rw [← updateTables_of_step hstep]
  exact target_updateTables now _ s

omit hwf in
theorem coordinationOnly_of_update : s.CoordinationOnly s' :=
  (step_coordinationStep (c := ⟨now, .updateAllCheckpoints⟩) rfl hstep).coordinationOnly

theorem committedPending_of_update (hqueued : requestKey tableName ∈ s.checkpointPublicationRequests)
    (he : extension ∈ watched) : s'.CommittedPending tableName extension ↔ s.LeftBehind now tableName extension := by
  unfold CommittedPending LeftBehind
  rw [(coordinationOnly_of_update hstep).getLatest]
  refine exists_congr fun id => and_congr_right fun hlatest => ?_
  have honly : ∀ other, s.Promotable now tableName extension other → other = id := fun other h =>
    Option.some.inj (h.latest.symm.trans hlatest)
  rw [Ne, active_of_update hwf hstep, activeAfter_watched hwf hqueued he, not_or]
  constructor
  · rintro ⟨hnot, hactive⟩
    exact ⟨fun hid => hactive ⟨hid, fun other h => hnot (honly other h ▸ h)⟩, hnot⟩
  · rintro ⟨hactive, hnot⟩
    exact ⟨hnot, fun h => hactive h.1⟩

theorem unwatched_of_update : s'.Unwatched tableName ↔ s.Overlooked now tableName := by
  have hwaiting : s'.checkpointsNeedingExtensionWork = s.checkpointsNeedingExtensionWork := by
    rw [coordinationOnly_of_update hstep]
  unfold Unwatched Overlooked PendingFor CommittedPending TargetPending CoveragePending
  simp only [(coordinationOnly_of_update hstep).getLatest, target_of_update hstep, Ne, active_of_update hwf hstep,
    hwaiting]
  refine or_congr_right (exists_congr fun e => and_congr_right fun _ => ?_)
  rw [← or_assoc, ← exists_or]
  simp only [or_and_right]

omit hwf in
theorem coveragePending_of_update :
    s'.CoveragePending tableName extension ↔ s.CoveragePending tableName extension := by
  rw [coordinationOnly_of_update hstep]
  rfl

omit hwf in
theorem trace_of_update : s'.ExtensionTrace tableName ↔ s.ExtensionTrace tableName := by
  rw [coordinationOnly_of_update hstep]
  rfl

end

/-- Traces and left checkpoints against left, waiting and other ones, where what waits leaves a trace. -/
theorem kept_iff_pending {trace left waiting other : Prop} (h : waiting → trace) :
    (trace ∨ left ↔ left ∨ waiting ∨ other) ↔ left ∨ (trace ↔ waiting ∨ other) := by
  tauto

/-- **What the queue keeps.** After an update a queued table is still queued exactly where the update leaves a
watched checkpoint behind or there is a trace of extension work. So the queue is exact, exactly as far as a
watched checkpoint is left behind, or there is a trace of extension work just where checkpoints wait for `"es"`
or something is overlooked. All of this is said of the state before the update. -/
theorem publicationQueue_iff_of_exec {mode : CompactionMode} {ids : IdInstance} {calls : List TimedCall}
    {now : Int} (hexec : Run.exec step (new mode ids) calls = some s)
    (hstep : s.step ⟨now, .updateAllCheckpoints⟩ = some s')
    (hqueued : requestKey tableName ∈ s.checkpointPublicationRequests) :
    (requestKey tableName ∈ s'.checkpointPublicationRequests ↔
      s.ExtensionTrace tableName ∨ ∃ extension ∈ watched, s.LeftBehind now tableName extension) ∧
    ((requestKey tableName ∈ s'.checkpointPublicationRequests ↔ s'.Pending tableName) ↔
      (∃ extension ∈ watched, s.LeftBehind now tableName extension) ∨
      (s.ExtensionTrace tableName ↔ s.CoveragePending tableName (some "es") ∨ s.Overlooked now tableName)) := by
  have hwf := queueWf_of_exec hexec
  have hleft : (∃ extension ∈ watched, s'.CommittedPending tableName extension) ↔
      ∃ extension ∈ watched, s.LeftBehind now tableName extension :=
    exists_congr fun e => and_congr_right fun he => committedPending_of_update hwf hstep hqueued he
  have hkept : requestKey tableName ∈ s'.checkpointPublicationRequests ↔
      s.ExtensionTrace tableName ∨ ∃ extension ∈ watched, s.LeftBehind now tableName extension := by
    rw [← hleft, ← trace_of_update hstep, ← checkpointPublicationStillPending_iff, ← updateTables_of_step hstep]
    exact updateTables_of_mem now _ s (hwf.mem_iff.mp hqueued) hwf.nodup hqueued
  have htrace : s.CoveragePending tableName (some "es") → s.ExtensionTrace tableName := extensionTrace_of_coveragePending
  refine ⟨hkept, ?_⟩
  rw [hkept, pending_iff, hleft, coveragePending_of_update hstep, unwatched_of_update hwf hstep]
  exact kept_iff_pending htrace

/-! ### Three runs -/

def fileCheckpoint : TableMetadataCheckpoint :=
  { tableName := "t", checkpointId := "c", schema := .minimal
    speedboatMetadata := some ⟨.single "f" 1 .minimal⟩ }

/-- A checkpoint that waits for its coverage keeps its table queued, as it should. -/
theorem publicationQueue_iff_of_exec_waiting :
    ∃ s s', Run.exec step (new .disabled .counting) [⟨0, .addCheckpoint fileCheckpoint⟩] = some s ∧
      s.step ⟨0, .updateAllCheckpoints⟩ = some s' ∧ s'.Pending "t" ∧
      (requestKey "t" ∈ s'.checkpointPublicationRequests ↔ s'.Pending "t") := by
  obtain ⟨s, hs, s', hs', hqueued, hwaiting⟩ :
      ∃ s, Run.exec step (new .disabled .counting) [⟨0, .addCheckpoint fileCheckpoint⟩] = some s ∧
      ∃ s', s.step ⟨0, .updateAllCheckpoints⟩ = some s' ∧ requestKey "t" ∈ s.checkpointPublicationRequests ∧
        s.checkpointsNeedingExtensionWork.lookup "t_es" = some ["c"] := by decide +kernel
  have hcoverage : s.CoveragePending "t" (some "es") := by
    refine ⟨"es", rfl, ?_⟩
    rw [Dict.getD, show extensionWorkKey "t" "es" = "t_es" by decide, hwaiting]
    exact List.cons_ne_nil _ _
  have hpending : s'.Pending "t" :=
    ⟨_, Or.inr (Or.inr ((coveragePending_of_update hs').mpr hcoverage))⟩
  have htrace := extensionTrace_of_coveragePending hcoverage
  exact ⟨s, s', hs, hs', hpending, (publicationQueue_iff_of_exec hs hs' hqueued).2.mpr
    (Or.inr (iff_of_true htrace (Or.inl hcoverage)))⟩

/-- The acknowledgements of one node and of the artifacts for a selector of `t`. -/
def acknowledge (extension : Option String) : List TimedCall :=
  (requiredArtifactClasses extension).map (fun artifactClass =>
    ⟨0, .recordArtifactReadiness ⟨.forTarget "t" extension, "c", 1, artifactClass, "b", 0⟩⟩) ++
  [⟨0, .recordServingNodeActivation ⟨.forTarget "t" extension, "n", 1, "c", 0⟩⟩]

/-- A checkpoint of one file, covered and promoted for both selectors. -/
def settledCalls : List TimedCall :=
  [⟨0, .addCheckpoint fileCheckpoint⟩, ⟨0, .extensionCommit "t" ⟨"x", "es", Dict.single "f" []⟩⟩,
    ⟨0, .heartbeatServingNode ⟨"n", 0, 0⟩⟩, ⟨0, .updateAllCheckpoints⟩] ++
  acknowledge none ++ acknowledge (some "es") ++ [⟨0, .updateAllCheckpoints⟩]

/-- A checkpoint that comes with the files of an extension that is not `"es"`, promoted without one. -/
def otherExtensionCalls : List TimedCall :=
  [⟨0, .addCheckpoint { tableName := "t", checkpointId := "c", schema := .minimal
                        extensionMetadata := Dict.single "vec" ∅ }⟩,
    ⟨0, .heartbeatServingNode ⟨"n", 0, 0⟩⟩, ⟨0, .updateAllCheckpoints⟩] ++ acknowledge none

theorem not_pending (hfrontiers : ∀ e ∈ s.latestCommittedCheckpointId.keys,
      s.getLatestMaterializedCheckpointSync tableName e = s.getPublishedCheckpointSync .active tableName e)
    (htargets : ∀ key ∈ s.publishedCheckpointId.keys, key.toList.head? ≠ some 't')
    (hwaiting : ∀ ids ∈ s.checkpointsNeedingExtensionWork.values, ids = []) : ¬ s.Pending tableName := by
  rintro ⟨e, ⟨id, hlatest, hactive⟩ | ⟨id, htarget, -⟩ | ⟨x, rfl, hids⟩⟩
  · obtain ⟨c, hc, -⟩ := Option.bind_eq_some_iff.mp hlatest
    have hkey : e ∈ s.latestCommittedCheckpointId.keys :=
      AList.mem_keys.mp (AList.lookup_isSome.mp (Option.isSome_iff_exists.mpr ⟨c, hc⟩))
    exact hactive ((hfrontiers e hkey).symm.trans hlatest)
  · have hkey : selectorStorageKey .target tableName e ∈ s.publishedCheckpointId.keys :=
      AList.mem_keys.mp (AList.lookup_isSome.mp (Option.isSome_iff_exists.mpr ⟨id, htarget⟩))
    refine htargets _ hkey ?_
    simp [selectorStorageKey, roleKey, String.toList_append]
  obtain ⟨ids, hlookup, hne⟩ := Dict.exists_of_getD (p := fun ids => ids ≠ []) hids (by simp)
  exact hne (hwaiting ids (Dict.mem_values.mpr ⟨_, hlookup⟩))

/-- A table with nothing pending stays queued, for the empty list of its waiting checkpoints; a table
with a checkpoint of another extension that is not active is dropped. -/
theorem publicationQueue_not_exact : (∃ s s', Run.exec step (new .disabled .counting) settledCalls = some s ∧
      s.step ⟨0, .updateAllCheckpoints⟩ = some s' ∧
      requestKey "t" ∈ s'.checkpointPublicationRequests ∧ ¬ s'.Pending "t") ∧
    ∃ s s', Run.exec step (new .disabled .counting) otherExtensionCalls = some s ∧
      s.step ⟨0, .updateAllCheckpoints⟩ = some s' ∧ requestKey "t" ∈ s.checkpointPublicationRequests ∧
      requestKey "t" ∉ s'.checkpointPublicationRequests ∧ s'.Pending "t" := by
  constructor
  · obtain ⟨s, hs, s', hs', hqueued, hfrontiers, htargets, hwaiting⟩ :
        ∃ s, Run.exec step (new .disabled .counting) settledCalls = some s ∧
        ∃ s', s.step ⟨0, .updateAllCheckpoints⟩ = some s' ∧ requestKey "t" ∈ s'.checkpointPublicationRequests ∧
          (∀ e ∈ s'.latestCommittedCheckpointId.keys, s'.getLatestMaterializedCheckpointSync "t" e =
            s'.getPublishedCheckpointSync .active "t" e) ∧
          (∀ key ∈ s'.publishedCheckpointId.keys, key.toList.head? ≠ some 't') ∧
          ∀ ids ∈ s'.checkpointsNeedingExtensionWork.values, ids = [] := by decide +kernel
    exact ⟨s, s', hs, hs', hqueued, not_pending hfrontiers htargets hwaiting⟩
  obtain ⟨s, hs, s', hs', hqueued, hdropped, hlatest, hactive⟩ :
      ∃ s, Run.exec step (new .disabled .counting) otherExtensionCalls = some s ∧
      ∃ s', s.step ⟨0, .updateAllCheckpoints⟩ = some s' ∧ requestKey "t" ∈ s.checkpointPublicationRequests ∧
        requestKey "t" ∉ s'.checkpointPublicationRequests ∧
        s'.getLatestMaterializedCheckpointSync "t" (some "vec") = some "c" ∧
        s'.getPublishedCheckpointSync .active "t" (some "vec") = none := by decide +kernel
  refine ⟨s, s', hs, hs', hqueued, hdropped, some "vec", Or.inl ⟨"c", hlatest, ?_⟩⟩
  rw [hactive]
  exact nofun

end EphemeralServiceImpl

end PowdrrEngine
