import PowdrrEngine.ServiceCoverageSteps

/-! Frontiers name stored checkpoints. A commit stores its checkpoint under the name it was given and
records it as the latest one under the table behind that name. The two agree as long as commits name
tables; a commit through an alias leaves the table's frontier without its checkpoint, and the next
commit to the table stops the service. -/

namespace PowdrrEngine

namespace CoverageRecords

open EphemeralServiceImpl

def FrontierStored (r : CoverageRecords) : Prop :=
  ∀ extension tableName id, r.frontier extension tableName = some id → (r.stored (checkpointKey tableName id)).isSome

namespace FrontierStored

variable {r r' : CoverageRecords}

section

variable (h : r.FrontierStored) {tableName : String}

include h

theorem congr (hfrontier : r'.frontier = r.frontier) (hstored : r'.stored = r.stored) : r'.FrontierStored := by
  unfold FrontierStored
  rw [hfrontier, hstored]
  exact h

theorem setFrontier {id : String} (extension : Option String) (hid : (r.stored (checkpointKey tableName id)).isSome) :
    (r.setFrontier extension tableName id).FrontierStored := by
  intro e t id' hid'
  simp only [CoverageRecords.setFrontier] at hid' ⊢
  split at hid'
  · rename_i heq
    cases hid'
    rw [heq.2]
    exact hid
  · exact h e t id' hid'

theorem store (tableName id : String) (c : TableMetadataCheckpoint) : (r.store tableName id c).FrontierStored := by
  intro e t id' hid'
  simp only [CoverageRecords.store, Function.update_apply]
  split
  · rfl
  · exact h e t id' hid'

theorem queued {id : String} {speedboatFiles icebergFiles : FileSetPayload}
    (hq : r.Queued tableName id speedboatFiles icebergFiles r') : r'.FrontierStored := by
  cases hq with
  | idle => exact h
  | work => exact h.congr rfl rfl

theorem commit (hname : r.realName tableName = tableName) (id : String)
    (c : TableMetadataCheckpoint) : (r.commit tableName id c).FrontierStored := by
  unfold CoverageRecords.commit
  rw [hname]
  refine (h.store tableName id c).setFrontier none ?_
  simp [CoverageRecords.store]

theorem added {metadata : TableMetadataCheckpoint} (ha : r.Added metadata r') : r'.FrontierStored := by
  have hadd : (r.add metadata).FrontierStored := by
    intro e t id hid
    simp only [CoverageRecords.add] at hid ⊢
    split at hid
    · rename_i heq
      cases hid
      rw [heq.1]
      split
      · assumption
      · simp
    have hold := h e t id hid
    split
    · exact hold
    · rw [Function.update_apply]
      split
      · rfl
      · exact hold
  cases ha with
  | frontiers => exact hadd
  | work _ hq => exact hadd.queued hq

theorem cover (tableName : String) (commit : ExtensionCommit) (ids : List String) :
    (r.cover tableName commit ids).FrontierStored := by
  intro e t id hid
  have hold := h e t id hid
  simp only [CoverageRecords.cover]
  split
  · rwa [Option.isSome_map]
  · exact hold

theorem advance {maxId : String} (hname : r.realName tableName = tableName)
    (hid : (r.stored (checkpointKey tableName maxId)).isSome) :
    (r.advance tableName maxId).FrontierStored := by
  unfold CoverageRecords.advance
  rw [hname]
  split
  · split
    · exact h.setFrontier _ hid
    · exact h
  · exact h.setFrontier _ hid

end

end FrontierStored

end CoverageRecords

namespace EphemeralServiceImpl

open CoverageRecords

variable {s s' : EphemeralServiceImpl}

def namesTables (s : EphemeralServiceImpl) : ServiceCall → Bool
  | .speedboatCommit commit => commit.typeFiles.all fun info => s.realTableName info.tableName = info.tableName
  | .icebergCommit tableName _ | .extensionCommit tableName _ => s.realTableName tableName = tableName
  | _ => true

section

variable (hinv : s.records.FrontierStored)

include hinv

theorem InfoStep.frontierStored {info : SpeedboatCommitTableInfo} (h : InfoStep s info s')
    (hname : s.realTableName info.tableName = info.tableName) :
    s'.records.FrontierStored ∧ s'.realTableName = s.realTableName := by
  cases h with
  | commit _ _ _ _ hq => exact ⟨(hinv.commit hname _ _).queued hq, hq.realName⟩
  | delete _ _ _ _ hrecords =>
    refine ⟨?_, congrArg CoverageRecords.realName hrecords⟩
    rw [hrecords]
    exact hinv.commit hname _ _

theorem frontierStored_infos {infos : List SpeedboatCommitTableInfo}
    (h : Run.exec speedboatCommitTableInfo s infos = some s')
    (hnames : ∀ info ∈ infos, s.realTableName info.tableName = info.tableName) :
    s'.records.FrontierStored := by
  induction infos generalizing s with
  | nil =>
    cases h
    exact hinv
  | cons info infos ih =>
    obtain ⟨mid, hmid, hrest⟩ := Option.bind_eq_some_iff.mp h
    obtain ⟨hinv', hreal⟩ := (infoStep_of_speedboatCommitTableInfo hmid).frontierStored hinv
      (hnames info List.mem_cons_self)
    refine ih hinv' hrest fun other hother => ?_
    rw [hreal]
    exact hnames other (List.mem_cons_of_mem _ hother)

theorem ExtensionStep.frontierStored {tableName maxId : String} {commit : ExtensionCommit}
    (h : ExtensionStep s tableName commit s' maxId)
    (hname : s.realTableName tableName = tableName) : s'.records.FrontierStored := by
  have hmem := List.mem_of_mem_filter (maxText_eq_some_iff.mp h.max).1
  have hcover := hinv.cover tableName commit (s.records.waiting (extensionWorkKey tableName commit.extension))
  have hstored : ((s.records.cover tableName commit (s.records.waiting
      (extensionWorkKey tableName commit.extension))).stored (checkpointKey tableName maxId)).isSome := by
    simp only [CoverageRecords.cover]
    split
    · rw [Option.isSome_map]
      exact h.stored maxId hmem
    · exact h.stored maxId hmem
  refine (hcover.advance hname hstored).congr h.frontier_eq ?_
  rw [h.stored_eq, advance_eq]

theorem frontierStored_step {c : TimedCall}
    (hok : s.namesTables c.call = true) (hstep : s.step c = some s') : s'.records.FrontierStored := by
  have h := step_coverageStep hstep
  generalize c.call = call at h hok
  cases h with
  | other heq => exact hinv.congr (by rw [heq]) (by rw [heq])
  | speedboat hmid heq =>
    rw [heq]
    refine frontierStored_infos hinv hmid fun info hinfo => ?_
    exact of_decide_eq_true (List.all_eq_true.mp hok info hinfo)
  | iceberg h => exact (hinv.commit (of_decide_eq_true hok) _ _).queued h.queued
  | extension h => exact h.frontierStored hinv (of_decide_eq_true hok)
  | add h => exact hinv.added h

end

/-- **Frontier well-formedness.** In every run whose commits name tables, every latest committed id
names a checkpoint that is stored under its table, and no commit to a table meets a frontier without
its checkpoint. -/
theorem frontier_stored_of_exec {mode : CompactionMode} {ids : IdInstance} {calls : List TimedCall}
    (hok : Run.Along step (fun s c => s.namesTables c.call = true) (new mode ids) calls)
    (hrun : Run.exec step (new mode ids) calls = some s) :
    (∀ extension checkpoints tableName id, s.latestCommittedCheckpointId.lookup extension = some checkpoints →
      checkpoints.lookup tableName = some id → (s.getCheckpointSync tableName id).isSome) ∧
    ∀ tableName schema, s.realTableName tableName = tableName →
      (s.latestCheckpoint tableName (some schema)).isSome := by
  have hinv : s.records.FrontierStored :=
    Run.exec_invariant (P := fun s => s.records.FrontierStored)
      (fun _ _ _ hinv hstep => frontierStored_step hinv hstep) (fun _ _ _ h => by cases h) hok hrun
  constructor
  · intro extension checkpoints tableName id hcheckpoints hid
    refine hinv extension tableName id ?_
    simp [records, hcheckpoints, hid]
  intro tableName schema hname
  unfold latestCheckpoint
  split
  · rename_i id hid
    refine hinv none tableName id ?_
    have hid' : s.records.frontier none (s.realTableName tableName) = some id := hid
    rwa [hname] at hid'
  · rfl

def commitFile (tableName file : String) : ServiceCall :=
  .speedboatCommit ⟨[.fromSegments "commit" tableName [⟨"segment", file, 1⟩] (some .minimal)], none⟩

/-- The alias is only used for looking up. -/
def aliasedTableCalls : List TimedCall := [⟨0, .addAlias "t" "a"⟩, ⟨0, commitFile "t" "f1"⟩, ⟨0, commitFile "t" "f2"⟩]

theorem frontier_stored_of_exec_aliasedTableCalls :
    ∃ s, Run.exec step (new .disabled .counting) aliasedTableCalls = some s ∧
      s.getLatestMaterializedCheckpointSync "a" none = some "3" ∧
      (s.latestCheckpoint "t" (some .minimal)).isSome := by
  refine Run.exists_end (p := fun s => s.getLatestMaterializedCheckpointSync "a" none = some "3" ∧
    s.realTableName "t" = "t") (by decide +kernel) ?_
  rintro s hs ⟨hlatest, hreal⟩
  exact ⟨hlatest, (frontier_stored_of_exec (by decide +kernel) hs).2 "t" .minimal hreal⟩

/-- A commit through an alias: the table's frontier has no checkpoint, and the next commit to the
table stops the service. -/
theorem not_frontier_stored_alias :
    ∃ s, Run.exec step (new .disabled .counting) [⟨0, .addAlias "t" "a"⟩, ⟨0, commitFile "a" "f1"⟩] =
        some s ∧ s.getLatestMaterializedCheckpointSync "t" none = some "1" ∧
      s.getCheckpointSync "t" "1" = none ∧ s.step ⟨0, commitFile "t" "f2"⟩ = none := by
  decide +kernel

end EphemeralServiceImpl

end PowdrrEngine
