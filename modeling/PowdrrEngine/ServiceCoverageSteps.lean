import PowdrrEngine.ServiceCoverage

/-! What extension commits, added checkpoints and the other calls do to the coverage records, and with
that what any step of the service does to them. -/

namespace PowdrrEngine

open List Option Run

namespace CoverageRecords

open EphemeralServiceImpl

/-- The records after a ready-made checkpoint was added, its files left aside: a checkpoint that is
stored under its key already stays, and the new id is the latest committed one of the table and of
every extension that the checkpoint comes with. -/
def add (r : CoverageRecords) (metadata : TableMetadataCheckpoint) : CoverageRecords :=
  let key := checkpointKey metadata.tableName metadata.checkpointId
  { r with
    stored := if (r.stored key).isSome then r.stored else Function.update r.stored key (some metadata)
    frontier := fun extension tableName =>
      if tableName = metadata.tableName ∧ extension ∈ none :: metadata.extensionMetadata.keys.map some
      then some metadata.checkpointId else r.frontier extension tableName }

/-- The records after a ready-made checkpoint was added. Without extension metadata all its files are
work. -/
inductive Added (r : CoverageRecords) (metadata : TableMetadataCheckpoint) : CoverageRecords → Prop
  | frontiers : metadata.extensionMetadata.keys ≠ [] → Added r metadata (r.add metadata)
  | work {r'} : metadata.extensionMetadata.keys = [] →
      (r.add metadata).Queued metadata.tableName metadata.checkpointId metadata.speedboatFiles
        metadata.icebergFiles r' → Added r metadata r'

theorem Added.stored {r r' : CoverageRecords} {metadata : TableMetadataCheckpoint} (h : r.Added metadata r') :
    r'.stored = (r.add metadata).stored := by
  cases h with
  | frontiers => rfl
  | work _ hq => exact hq.stored

end CoverageRecords

namespace EphemeralServiceImpl

open CoverageRecords CheckpointCatalog

variable {s s' : EphemeralServiceImpl} {commit : ExtensionCommit} {tableName : String} {c : TimedCall}

/-! ### Extension commits -/

theorem addCoverageFor_eq (s : EphemeralServiceImpl) (tableName id : String) (commit : ExtensionCommit) :
    s.addCoverageFor tableName id commit = (s.getCheckpointSync tableName id).map fun c =>
      let s := s.storeCheckpoint tableName id (c.addCoverage commit)
      if (c.addCoverage commit).validateFullyCoveredForExtension commit.extension then
        (some id, s.stopAwaiting tableName commit.extension id) else (none, s) := by
  unfold addCoverageFor
  cases s.getCheckpointSync tableName id with
  | none => rfl
  | some c => simp [TableMetadataCheckpoint.fullyCoveredForExtension_eq]

theorem waiting_stopAwaiting (tableName extension id : String) :
    (s.stopAwaiting tableName extension id).records.waiting = fun key =>
      if key = extensionWorkKey tableName extension then (s.records.waiting key).filter (· ≠ id)
      else s.records.waiting key := by
  funext key
  simp only [records, stopAwaiting, Dict.getD, Dict.lookup_modify]
  split
  · rename_i hkey
    rw [hkey]
    cases s.checkpointsNeedingExtensionWork.lookup (extensionWorkKey tableName extension) <;> rfl
  · rfl

theorem addCoverageFor_spec {id : String} {o : Option String}
    (h : s.addCoverageFor tableName id commit = some (o, s')) :
    o.toList = s.records.completed tableName commit [id] ∧ s'.records = s.records.cover tableName commit [id] ∧
      (s.records.stored (checkpointKey tableName id)).isSome := by
  rw [addCoverageFor_eq] at h
  obtain ⟨c, hc, heq⟩ := map_eq_some_iff.mp h
  have hlookup : s.records.stored (checkpointKey tableName id) = some c := hc
  have hstored : (s.storeCheckpoint tableName id (c.addCoverage commit)).records.stored =
      (s.records.cover tableName commit [id]).stored := by
    rw [records_storeCheckpoint]
    funext key
    simp only [store, cover, Function.update_apply, map_singleton, mem_singleton]
    split
    · rename_i hkey
      rw [hkey, hlookup, map_some]
    · rfl
  have hsome : (s.records.stored (checkpointKey tableName id)).isSome := by rw [hlookup]; rfl
  split at heq
  · rename_i hfull
    cases heq
    have hcompleted : s.records.completed tableName commit [id] = [id] := by
      simp [completed, hlookup, hfull]
    refine ⟨hcompleted.symm, ?_, hsome⟩
    have hwaiting : (((s.storeCheckpoint tableName id (c.addCoverage commit)).stopAwaiting tableName
        commit.extension id).records).waiting = (s.records.cover tableName commit [id]).waiting := by
      rw [waiting_stopAwaiting]
      simp only [cover, hcompleted, mem_singleton]
      rfl
    exact CoverageRecords.ext rfl rfl hstored hwaiting rfl
  · rename_i hfull
    cases heq
    have hcompleted : s.records.completed tableName commit [id] = [] := by
      simp [completed, hlookup, hfull]
    refine ⟨hcompleted.symm, ?_, hsome⟩
    have hwaiting : (s.storeCheckpoint tableName id (c.addCoverage commit)).records.waiting =
        (s.records.cover tableName commit [id]).waiting := by
      funext key
      simp only [cover, hcompleted, not_mem_nil, not_false_eq_true, decide_true, filter_true]
      split <;> rfl
    exact CoverageRecords.ext rfl rfl hstored hwaiting rfl

theorem isSome_stored_cover (r : CoverageRecords) (ids : List String) (key : String) :
    ((r.cover tableName commit ids).stored key).isSome = (r.stored key).isSome := by
  simp only [cover]
  split
  · rw [isSome_map]
  · rfl

theorem addCoverageFor_foldlM_spec {ids acc covered : List String}
    (h : ids.foldlM (fun (p : List String × EphemeralServiceImpl) checkpointId =>
      (addCoverageFor p.2 tableName checkpointId commit).map fun (id, s) => (p.1 ++ id.toList, s))
      (acc, s) = some (covered, s')) :
    covered = acc ++ s.records.completed tableName commit ids ∧ s'.records = s.records.cover tableName commit ids ∧
      ∀ id ∈ ids, (s.records.stored (checkpointKey tableName id)).isSome := by
  induction ids generalizing acc s with
  | nil =>
    cases h
    refine ⟨by simp [completed], ?_, by simp⟩
    exact CoverageRecords.ext rfl rfl (by simp [cover]) (by simp [cover, completed]) rfl
  | cons id ids ih =>
    simp only [foldlM_cons, bind_eq_some] at h
    obtain ⟨⟨acc', mid⟩, hmid, hrest⟩ := h
    obtain ⟨⟨o, mid'⟩, hcover, hpair⟩ := map_eq_some_iff.mp hmid
    cases hpair
    obtain ⟨ho, hmidRecords, hid⟩ := addCoverageFor_spec hcover
    obtain ⟨hcovered, hrecords, hstored⟩ := ih hrest
    rw [hmidRecords] at hcovered hrecords hstored
    rw [completed_cover, ho, append_assoc] at hcovered
    refine ⟨?_, ?_, ?_⟩
    · rw [hcovered, completed, completed, completed, ← filter_append, singleton_append]
    · rw [hrecords, cover_cover, singleton_append]
    intro id' hid'
    rcases mem_cons.mp hid' with rfl | hid'
    · exact hid
    exact (isSome_stored_cover _ _ _).symm.trans (hstored id' hid')

theorem addCoverageFor_foldlM_isSome (commit : ExtensionCommit) {ids : List String} (acc : List String)
    (h : ∀ id ∈ ids, (s.records.stored (checkpointKey tableName id)).isSome) :
    (ids.foldlM (fun (p : List String × EphemeralServiceImpl) checkpointId =>
      (addCoverageFor p.2 tableName checkpointId commit).map fun (id, s) => (p.1 ++ id.toList, s))
      (acc, s)).isSome := by
  induction ids generalizing acc s with
  | nil => rfl
  | cons id ids ih =>
    have hsome : (s.addCoverageFor tableName id commit).isSome := by
      rw [addCoverageFor_eq, isSome_map]
      exact h id mem_cons_self
    obtain ⟨⟨o, mid⟩, hmid⟩ := isSome_iff_exists.mp hsome
    rw [foldlM_cons, hmid, map_some, bind_eq_bind, bind_some]
    refine ih _ fun id' hid' => ?_
    rw [(addCoverageFor_spec hmid).2.1, isSome_stored_cover]
    exact h id' (mem_cons_of_mem _ hid')

theorem records_advanceExtensionFrontier (tableName maxId : String) :
    (s.advanceExtensionFrontier tableName maxId).records = s.records.advance tableName maxId := by
  unfold advanceExtensionFrontier advance
  rw [show s.records.frontier (some "es") (s.records.realName tableName) =
    s.getLatestMaterializedCheckpointSync tableName (some "es") from rfl]
  cases s.getLatestMaterializedCheckpointSync tableName (some "es") with
  | none => exact records_setLatestCommittedCheckpointId _ _ _
  | some latest =>
    dsimp only
    split
    · exact records_setLatestCommittedCheckpointId _ _ _
    · rfl

theorem applyExtensionCommitToWorkItem_spec (h : s.applyExtensionCommitToWorkItem tableName commit = some s') :
    s.records.WorkDone tableName commit s'.records ∧ s'.records = { s.records with work := s'.records.work } := by
  unfold applyExtensionCommitToWorkItem at h
  split at h
  · rename_i hnone
    cases h
    have hwork : s.records.work commit.extension tableName = none := by
      simp only [records, hnone, map_none]
    refine ⟨⟨fun _ _ _ => rfl, id, fun item hitem => ?_⟩, rfl⟩
    rw [hwork] at hitem
    cases hitem
  rename_i tracker htracker
  simp only [bind_eq_some] at h
  obtain ⟨speedboat, hspeedboat, iceberg, hiceberg, heq⟩ := h
  cases heq
  have hwork : s.records.work commit.extension tableName = some tracker.workItem := by
    simp only [records, htracker, map_some]
  refine ⟨⟨fun e t hother => ?_, fun hnone => ?_, fun item hitem => ?_⟩, rfl⟩
  · rw [work_storeExtensionTracker]
    exact if_neg fun h => hother.elim (fun he => he h.1) (fun ht => ht h.2)
  · rw [hwork] at hnone
    cases hnone
  · cases hwork.symm.trans hitem
    rw [work_storeExtensionTracker]
    exact ⟨_, if_pos ⟨rfl, rfl⟩, hspeedboat, hiceberg⟩

theorem applyExtensionCommitToWorkItem_isSome (h : ∀ item, s.records.work commit.extension tableName = some item →
      item.speedboatFiles.Wf ∧ item.icebergFiles.Wf) :
    (s.applyExtensionCommitToWorkItem tableName commit).isSome := by
  unfold applyExtensionCommitToWorkItem
  split
  · rfl
  rename_i tracker htracker
  have hwork : s.records.work commit.extension tableName = some tracker.workItem := by
    simp only [records, htracker, map_some]
  obtain ⟨speedboat, hspeedboat, -⟩ := (h _ hwork).1.remove commit.files.keys
  obtain ⟨iceberg, hiceberg, -⟩ := (h _ hwork).2.remove commit.files.keys
  rw [hspeedboat, hiceberg]
  rfl

/-- What an extension commit does to the records; `maxId` is the greatest id it completes. -/
structure ExtensionStep (s : EphemeralServiceImpl) (tableName : String) (commit : ExtensionCommit)
    (s' : EphemeralServiceImpl) (maxId : String) : Prop where
  stored : ∀ id ∈ s.records.waiting (extensionWorkKey tableName commit.extension),
    (s.records.stored (checkpointKey tableName id)).isSome
  max : maxText (s.records.completed tableName commit
    (s.records.waiting (extensionWorkKey tableName commit.extension))) = some maxId
  work : s.records.WorkDone tableName commit s'.records
  stored_eq : s'.records.stored = (s.records.cover tableName commit
    (s.records.waiting (extensionWorkKey tableName commit.extension))).stored
  waiting_eq : s'.records.waiting = (s.records.cover tableName commit
    (s.records.waiting (extensionWorkKey tableName commit.extension))).waiting
  frontier_eq : s'.records.frontier = ((s.records.cover tableName commit
    (s.records.waiting (extensionWorkKey tableName commit.extension))).advance tableName maxId).frontier

theorem extensionStep_of_extensionCommit (h : s.extensionCommit tableName commit = some s') :
    ∃ maxId, ExtensionStep s tableName commit s' maxId := by
  simp only [extensionCommit, bind_eq_some] at h
  obtain ⟨⟨covered, s1⟩, hcover, maxId, hmax, s2, happly, heq⟩ := h
  cases heq
  obtain ⟨hcovered, hs1, hstored⟩ := addCoverageFor_foldlM_spec hcover
  subst hcovered
  obtain ⟨hdone, hs2⟩ := applyExtensionCommitToWorkItem_spec happly
  have hrecent : (s1.addRecentExtensionFiles tableName commit).records = s1.records := rfl
  rw [hrecent] at hdone hs2
  have hfinal : ((s2.advanceExtensionFrontier tableName maxId).queuePublicationRequest
      defaultMetadataNamespace tableName).records =
        { s1.records.advance tableName maxId with work := s2.records.work } := by
    rw [← advance_work, ← hs2]
    exact records_advanceExtensionFrontier _ _
  rw [advance_eq, hs1] at hfinal
  rw [hs1] at hdone
  refine ⟨maxId, hstored, hmax, ?_, ?_, ?_, ?_⟩
  · rw [hfinal]
    exact ⟨hdone.others, hdone.none, hdone.some⟩
  · rw [hfinal]
    rfl
  · rw [hfinal]
    rfl
  · rw [hfinal]
    rfl

/-- **When an extension commit goes through.** Every waiting checkpoint is stored, the commit completes
one of them, and the table's work is in order. -/
theorem extensionCommit_isSome (hstored : ∀ id ∈ s.records.waiting (extensionWorkKey tableName commit.extension),
      (s.records.stored (checkpointKey tableName id)).isSome) (hcompleted : s.records.completed tableName commit
      (s.records.waiting (extensionWorkKey tableName commit.extension)) ≠ [])
    (hwork : ∀ item, s.records.work commit.extension tableName = some item →
      item.speedboatFiles.Wf ∧ item.icebergFiles.Wf) :
    (s.extensionCommit tableName commit).isSome := by
  obtain ⟨⟨covered, s1⟩, hcover⟩ := isSome_iff_exists.mp (addCoverageFor_foldlM_isSome commit [] hstored)
  obtain ⟨hcovered, hs1, -⟩ := addCoverageFor_foldlM_spec hcover
  obtain ⟨maxId, hmax⟩ : ∃ maxId, maxText covered = some maxId := by
    cases covered with
    | nil => exact absurd hcovered.symm hcompleted
    | cons id ids => exact ⟨_, rfl⟩
  have hitems : ∀ item, s1.records.work commit.extension tableName = some item →
      item.speedboatFiles.Wf ∧ item.icebergFiles.Wf := by
    rw [hs1]
    exact hwork
  obtain ⟨s2, happly⟩ : ∃ s2, (s1.addRecentExtensionFiles tableName
      commit).applyExtensionCommitToWorkItem tableName commit = some s2 :=
    isSome_iff_exists.mp (applyExtensionCommitToWorkItem_isSome hitems)
  refine isSome_iff_exists.mpr ⟨(s2.advanceExtensionFrontier tableName
    maxId).queuePublicationRequest defaultMetadataNamespace tableName, ?_⟩
  simp only [extensionCommit, bind_eq_some]
  exact ⟨_, hcover, maxId, hmax, s2, happly, rfl⟩

/-! ### Added checkpoints -/

theorem records_storeAddedCheckpoint (metadata : TableMetadataCheckpoint) : (s.storeAddedCheckpoint metadata).records =
      if (s.records.stored (checkpointKey metadata.tableName metadata.checkpointId)).isSome then s.records
      else s.records.store metadata.tableName metadata.checkpointId metadata := by
  have hmem : checkpointKey metadata.tableName metadata.checkpointId ∈ s.checkpoints ↔
      (s.records.stored (checkpointKey metadata.tableName metadata.checkpointId)).isSome :=
    AList.lookup_isSome.symm
  unfold storeAddedCheckpoint
  dsimp only
  by_cases ht : metadata.tableName ∈ s.tables
  · rw [if_pos ht]
    split
    · rename_i hstored
      rw [if_pos (hmem.mp hstored)]
    · rename_i hstored
      rw [if_neg fun h => hstored (hmem.mpr h)]
      exact records_storeCheckpoint _ _ _
  rw [if_neg ht]
  split
  · rename_i hstored
    rw [if_pos (hmem.mp hstored)]
    rfl
  · rename_i hstored
    rw [if_neg fun h => hstored (hmem.mpr h)]
    exact records_storeCheckpoint _ _ _

theorem records_setLatest_foldl (extensions : List String) (tableName id : String) :
    (extensions.foldl (fun s extension =>
      s.setLatestCommittedCheckpointId (some extension) tableName id) s).records =
      { s.records with frontier := fun e t => if t = tableName ∧ e ∈ extensions.map some then some id
        else s.records.frontier e t } := by
  induction extensions generalizing s with
  | nil => simp
  | cons extension extensions ih =>
    rw [foldl_cons, ih, records_setLatestCommittedCheckpointId]
    refine CoverageRecords.ext rfl (funext fun e => funext fun t => ?_) rfl rfl rfl
    simp only [setFrontier, map_cons, mem_cons]
    by_cases ht : t = tableName <;> by_cases he : e = some extension <;> simp [ht, he]

theorem records_addCheckpoint_frontiers (metadata : TableMetadataCheckpoint) :
    (metadata.extensionMetadata.keys.foldl (fun s extension =>
      s.setLatestCommittedCheckpointId (some extension) metadata.tableName metadata.checkpointId)
      ((s.storeAddedCheckpoint metadata).setLatestCommittedCheckpointId none metadata.tableName
        metadata.checkpointId)).records = s.records.add metadata := by
  rw [records_setLatest_foldl, records_setLatestCommittedCheckpointId, records_storeAddedCheckpoint]
  refine CoverageRecords.ext ?_ (funext fun e => funext fun t => ?_) ?_ ?_ ?_
  · split <;> rfl
  · have hfrontier : (if (s.records.stored (checkpointKey metadata.tableName
        metadata.checkpointId)).isSome then s.records else s.records.store metadata.tableName
          metadata.checkpointId metadata).frontier = s.records.frontier := by
      split <;> rfl
    simp only [setFrontier, add, hfrontier, mem_cons]
    by_cases ht : t = metadata.tableName <;> by_cases he : e = none <;> simp [ht, he]
  · simp only [setFrontier, add, store]
    split <;> rfl
  · split <;> rfl
  · split <;> rfl

theorem added_of_addCheckpoint {metadata : TableMetadataCheckpoint}
    (h : s.addCheckpoint metadata = some s') : s.records.Added metadata s'.records := by
  simp only [addCheckpoint, bind_eq_some] at h
  obtain ⟨s1, hext, heq⟩ := h
  cases heq
  have hfrontiers := s.records_addCheckpoint_frontiers metadata
  unfold addCheckpointExtensions at hext
  split at hext
  · rename_i hkeys
    cases hext
    have hadded := Added.frontiers (r := s.records) hkeys
    rw [← hfrontiers] at hadded
    exact hadded
  rename_i hkeys
  have hnil : metadata.extensionMetadata.keys = [] := not_not.mp hkeys
  rw [hnil, foldl_nil] at hfrontiers
  have hqueued := queued_of_fillExtensionWorkItem hext
  rw [hfrontiers] at hqueued
  exact .work hnil hqueued

/-! ### Steps -/

inductive CoverageStep (s : EphemeralServiceImpl) : ServiceCall → EphemeralServiceImpl → Prop
  | other {call s'} : s'.records = { s.records with realName := s'.records.realName } → CoverageStep s call s'
  | speedboat {commit mid s'} : Run.exec speedboatCommitTableInfo s commit.typeFiles = some mid →
      s'.records = mid.records → CoverageStep s (.speedboatCommit commit) s'
  | iceberg {tableName commit s' latest pre c speedboatFiles icebergFiles} :
      IcebergStep s tableName commit s' latest pre c speedboatFiles icebergFiles →
      CoverageStep s (.icebergCommit tableName commit) s'
  | extension {tableName commit s' maxId} : ExtensionStep s tableName commit s' maxId →
      CoverageStep s (.extensionCommit tableName commit) s'
  | add {metadata s'} : s.records.Added metadata s'.records → CoverageStep s (.addCheckpoint metadata) s'

theorem exec_of_speedboatCommit {commit : SpeedboatCommit} (h : s.speedboatCommit commit = some s') :
    ∃ mid, Run.exec speedboatCommitTableInfo s commit.typeFiles = some mid ∧ s'.records = mid.records := by
  unfold speedboatCommit at h
  split at h
  · cases h
  · obtain ⟨mid, hmid, heq⟩ := bind_eq_some_iff.mp h
    cases heq
    refine ⟨mid, (exec_eq_foldlM _ _).trans hmid, ?_⟩
    exact List.foldlRecOn _ _ (motive := fun t : EphemeralServiceImpl => t.records = mid.records) rfl
      fun _ h _ _ => h

theorem work_of_commitOps (hcommit : c.call.isCommit = false) (h : CommitOps c s s') :
    s'.records.work = s.records.work := by
  refine h.frame (fun s => s.records.work) fun a b hop => ?_
  cases hop with
  | claimExtensions hitems =>
    funext e t
    simp only [records, Dict.lookup_insert_eq]
    split
    · rename_i he
      subst he
      rw [hitems, Option.bind_some, Option.bind_some, Dict.lookup_mapValues, Option.map_map]
      refine congrArg (fun f => Option.map f _) (funext fun tracker => ?_)
      simp only [Function.comp_apply]
      split <;> rfl
    · rfl
  | lessWork hcall =>
    rw [hcall] at hcommit
    cases hcommit
  | startWork _ _ hcall | moreWork hcall =>
    rw [hcommit] at hcall
    cases hcall
  | _ => rfl

theorem records_eq_of_publishEffect (h : PublishEffect s.catalog s'.catalog)
    (hwork : s'.records.work = s.records.work) :
    s'.records = { s.records with realName := s'.records.realName } := by
  have hlatest : s'.latestCommittedCheckpointId = s.latestCommittedCheckpointId := h.latest
  have hstored : s'.checkpoints = s.checkpoints := h.checkpoints
  have hwaiting : s'.checkpointsNeedingExtensionWork = s.checkpointsNeedingExtensionWork := h.waiting
  refine CoverageRecords.ext rfl ?_ ?_ ?_ hwork
  · simp [records, hlatest]
  · simp [records, hstored]
  · simp [records, hwaiting]

/-- **What a step does to the coverage records.** -/
theorem step_coverageStep (h : s.step c = some s') : CoverageStep s c.call s' := by
  cases hkind : c.call.isCoordination with
  | true =>
    have hstep := step_coordinationStep hkind h
    refine .other (records_eq_of_publishEffect (coordinationStep_effect hstep) ?_)
    rw [hstep.coordinationOnly]
    rfl
  | false =>
    have hops := step_commitOps hkind h
    obtain ⟨now, call⟩ := c
    cases call with
    | speedboatCommit commit =>
      rw [step_speedboatCommit] at h
      obtain ⟨mid, hinfos, hrecords⟩ := exec_of_speedboatCommit h
      exact .speedboat hinfos hrecords
    | icebergCommit tableName commit =>
      rw [step_icebergCommit] at h
      obtain ⟨_, _, _, _, _, hiceberg⟩ := icebergStep_of_icebergCommit h
      exact .iceberg hiceberg
    | extensionCommit tableName commit =>
      rw [step_extensionCommit] at h
      obtain ⟨_, hextension⟩ := extensionStep_of_extensionCommit h
      exact .extension hextension
    | addCheckpoint metadata =>
      rw [step_addCheckpoint] at h
      exact .add (added_of_addCheckpoint h)
    | addAlias | removeAlias =>
      cases h
      exact .other rfl
    | _ => exact .other (records_eq_of_publishEffect
        (commitOps_effect rfl (fun _ _ => ⟨ServiceCall.noConfusion, ServiceCall.noConfusion⟩) hops)
        (work_of_commitOps rfl hops))

end EphemeralServiceImpl

end PowdrrEngine
