import PowdrrEngine.SafetyExtensionFrontier

/-! No extension work is lost. The checkpoints that wait for `"es"`, their coverage and the files a table
has outstanding are kept apart, and every commit updates all three. Whatever a waiting checkpoint has
uncovered is outstanding, provided file sets arrive in order and no two checkpoints share a key. From
the same invariant it follows when an extension commit goes through. -/

namespace PowdrrEngine

open List Function FileSetPayload

def ExtensionWorkItem.paths (item : ExtensionWorkItem) : List String :=
  item.speedboatFiles.filePaths ++ item.icebergFiles.filePaths

/-- Both file sets of a checkpoint are in order. -/
def TableMetadataCheckpoint.FilesWf (c : TableMetadataCheckpoint) : Prop := c.icebergFiles.Wf ∧ c.speedboatFiles.Wf

instance (c : TableMetadataCheckpoint) : Decidable c.FilesWf := inferInstanceAs (Decidable (_ ∧ _))

namespace CoverageRecords

open EphemeralServiceImpl

/-- Whatever a waiting checkpoint has uncovered is outstanding, and all file sets are in order. -/
structure WorkKept (r : CoverageRecords) : Prop where
  storedWf : ∀ key c, r.stored key = some c → c.FilesWf
  workWf : ∀ extension tableName item, r.work extension tableName = some item →
    item.speedboatFiles.Wf ∧ item.icebergFiles.Wf
  forEs : ∀ key, r.waiting key ≠ [] → ∃ tableName, key = extensionWorkKey tableName "es"
  stored : ∀ tableName, ∀ id ∈ r.waiting (extensionWorkKey tableName "es"),
    (r.stored (checkpointKey tableName id)).isSome
  kept : ∀ tableName, ∀ id ∈ r.waiting (extensionWorkKey tableName "es"), ∀ c,
    r.stored (checkpointKey tableName id) = some c →
    ∀ path ∈ c.icebergPaths ++ c.speedboatPaths, path ∉ c.extensionMap "es" →
      ∃ item, r.work "es" tableName = some item ∧ path ∈ item.paths

theorem Merged.spec {old : Option ExtensionWorkItem} {speedboatFiles icebergFiles : FileSetPayload}
    {item : ExtensionWorkItem} (h : Merged old speedboatFiles icebergFiles item)
    (hold : ∀ o ∈ old, o.speedboatFiles.Wf ∧ o.icebergFiles.Wf) (hspeedboat : speedboatFiles.Wf)
    (hiceberg : icebergFiles.Wf) :
    (item.speedboatFiles.Wf ∧ item.icebergFiles.Wf) ∧
      (∀ path ∈ speedboatFiles.filePaths ++ icebergFiles.filePaths, path ∈ item.paths) ∧
      ∀ o ∈ old, ∀ path ∈ o.paths, path ∈ item.paths := by
  cases old with
  | none =>
    obtain ⟨rfl, rfl⟩ := h
    exact ⟨⟨hspeedboat, hiceberg⟩, fun _ h => h, by simp⟩
  | some o =>
    obtain ⟨hwf, hwf'⟩ := hold o rfl
    obtain ⟨speedboat, hs, hswf, hsmem⟩ := hwf.merge hspeedboat
    obtain ⟨iceberg, hi, hiwf, himem⟩ := hwf'.merge hiceberg
    cases hs.symm.trans h.1
    cases hi.symm.trans h.2
    refine ⟨⟨hswf, hiwf⟩, fun path hpath => ?_, ?_⟩
    · rcases mem_append.mp hpath with hpath | hpath
      · exact mem_append_left _ ((hsmem path).mpr (Or.inr hpath))
      · exact mem_append_right _ ((himem path).mpr (Or.inr hpath))
    · rintro _ ⟨⟩ path hpath
      rcases mem_append.mp hpath with hpath | hpath
      · exact mem_append_left _ ((hsmem path).mpr (Or.inl hpath))
      · exact mem_append_right _ ((himem path).mpr (Or.inl hpath))

namespace WorkKept

variable {r r' : CoverageRecords} {c : TableMetadataCheckpoint} {tableName : String}

theorem congr (h : r.WorkKept) (hstored : r'.stored = r.stored) (hwaiting : r'.waiting = r.waiting)
    (hwork : r'.work = r.work) : r'.WorkKept := by
  obtain ⟨hstoredWf, hworkWf, hforEs, hall, hkept⟩ := h
  constructor
  · rwa [hstored]
  · rwa [hwork]
  · rwa [hwaiting]
  · rwa [hstored, hwaiting]
  · rwa [hstored, hwaiting, hwork]

theorem store (h : r.WorkKept) {id : String} (hfresh : r.stored (checkpointKey tableName id) = none)
    (hwf : c.FilesWf) (hstored : r'.stored = Function.update r.stored (checkpointKey tableName id) (some c))
    (hwaiting : r'.waiting = r.waiting) (hwork : r'.work = r.work) : r'.WorkKept := by
  have hsame : ∀ {t i}, i ∈ r.waiting (extensionWorkKey t "es") →
      r'.stored (checkpointKey t i) = r.stored (checkpointKey t i) := by
    intro t i hi
    rw [hstored, update_of_ne]
    intro heq
    have hsome := h.stored t i hi
    rw [heq, hfresh] at hsome
    cases hsome
  refine ⟨fun key d hd => ?_, by rw [hwork]; exact h.workWf, by rw [hwaiting]; exact h.forEs,
    fun t i hi => ?_, fun t i hi d hd => ?_⟩
  · rw [hstored, update_apply] at hd
    split at hd
    · cases hd
      exact hwf
    · exact h.storedWf key d hd
  · rw [hwaiting] at hi
    rw [hsame hi]
    exact h.stored t i hi
  · rw [hwaiting] at hi
    rw [hsame hi] at hd
    rw [hwork]
    exact h.kept t i hi d hd

theorem queued (h : r.WorkKept) {id : String} {speedboatFiles icebergFiles : FileSetPayload}
    (hq : r.Queued tableName id speedboatFiles icebergFiles r')
    (hc : r.stored (checkpointKey tableName id) = some c) (hspeedboat : speedboatFiles.Wf)
    (hiceberg : icebergFiles.Wf)
    (hmissing : ∀ path ∈ c.icebergPaths ++ c.speedboatPaths, path ∉ c.extensionMap "es" →
      path ∈ speedboatFiles.filePaths ++ icebergFiles.filePaths) : r'.WorkKept := by
  cases hq with
  | idle => exact h
  | @work item hmerged =>
    obtain ⟨hitemWf, hnew, hold⟩ := hmerged.spec (fun o ho => h.workWf "es" tableName o ho) hspeedboat hiceberg
    have hwork : (r.queue tableName id item).work "es" tableName = some item := by simp [queue]
    refine ⟨h.storedWf, fun e t o ho => ?_, fun key hkey => ?_, fun t i hi => ?_, fun t i hi d hd => ?_⟩
    · simp only [queue] at ho
      split at ho
      · cases ho
        exact hitemWf
      · exact h.workWf e t o ho
    · simp only [queue, update_apply] at hkey
      split at hkey
      · rename_i heq
        exact ⟨tableName, heq⟩
      · exact h.forEs key hkey
    · simp only [queue, update_apply] at hi
      split at hi
      · rename_i heq
        rw [extensionWorkKey_inj heq]
        rcases mem_append.mp hi with hi | hi
        · exact h.stored tableName i hi
        · rw [mem_singleton.mp hi]
          change (r.stored (checkpointKey tableName id)).isSome
          rw [hc]
          rfl
      · exact h.stored t i hi
    · intro path hpath hnot
      by_cases ht : t = tableName
      · subst ht
        refine ⟨item, hwork, ?_⟩
        simp only [queue, update_self] at hi
        rcases mem_append.mp hi with hi | hi
        · obtain ⟨o, ho, hmem⟩ := h.kept t i hi d hd path hpath hnot
          exact hold o ho path hmem
        · rw [mem_singleton.mp hi] at hd
          cases hc.symm.trans hd
          exact hnew path (hmissing path hpath hnot)
      · have hne : extensionWorkKey t "es" ≠ extensionWorkKey tableName "es" :=
          fun heq => ht (extensionWorkKey_inj heq)
        simp only [queue, update_of_ne hne] at hi
        have hwork' : (r.queue tableName id item).work "es" t = r.work "es" t := by simp [queue, ht]
        rw [hwork']
        exact h.kept t i hi d hd path hpath hnot

theorem extended (h : r.WorkKept) {commit : ExtensionCommit} {ids : List String}
    (hids : ids = r.waiting (extensionWorkKey tableName commit.extension))
    (hstored : r'.stored = (r.cover tableName commit ids).stored)
    (hwaiting : r'.waiting = (r.cover tableName commit ids).waiting)
    (hwork : r.WorkDone tableName commit r') : r'.WorkKept := by
  have hsub : ∀ {key id}, id ∈ r'.waiting key → id ∈ r.waiting key := fun hid =>
    mem_waiting_of_cover (hwaiting ▸ hid)
  refine ⟨fun key d hd => ?_, fun e t item hitem => ?_, fun key hkey => ?_, fun t i hi => ?_,
    fun t i hi d hd path hpath hnot => ?_⟩
  · rw [hstored] at hd
    obtain ⟨c, hc, rfl⟩ := cover_stored_eq_some.mp hd
    have hwf := h.storedWf key c hc
    split
    · exact hwf
    · exact hwf
  · by_cases hsame : e = commit.extension ∧ t = tableName
    swap
    · rw [hwork.others e t (not_and_or.mp hsame)] at hitem
      exact h.workWf e t item hitem
    obtain ⟨rfl, rfl⟩ := hsame
    cases hold : r.work commit.extension t with
    | none =>
      rw [hwork.none hold] at hitem
      cases hitem
    | some old =>
      obtain ⟨item', hitem', hspeedboat, hiceberg⟩ := hwork.some old hold
      cases hitem.symm.trans hitem'
      obtain ⟨hswf, hiwf⟩ := h.workWf _ _ old hold
      obtain ⟨_, hs, hs', -⟩ := hswf.remove commit.files.keys
      obtain ⟨_, hi, hi', -⟩ := hiwf.remove commit.files.keys
      cases hs.symm.trans hspeedboat
      cases hi.symm.trans hiceberg
      exact ⟨hs', hi'⟩
  · obtain ⟨id, hid⟩ := exists_mem_of_ne_nil _ hkey
    exact h.forEs key (ne_nil_of_mem (hsub hid))
  · rw [hstored, isSome_stored_cover]
    exact h.stored t i (hsub hi)
  · rw [hstored] at hd
    obtain ⟨c, hc, rfl⟩ := cover_stored_eq_some.mp hd
    have hdata : path ∈ c.icebergPaths ++ c.speedboatPaths := by
      split at hpath <;> exact hpath
    have hnotOld : path ∉ c.extensionMap "es" := by
      intro hmem
      refine hnot ?_
      split
      · by_cases hext : "es" = commit.extension
        · rw [hext] at hmem ⊢
          exact (c.mem_extensionMap_addCoverage commit hdata).mpr (Or.inl hmem)
        · rwa [c.extensionMap_addCoverage_of_ne commit hext]
      · exact hmem
    obtain ⟨item, hitem, hpathItem⟩ := h.kept t i (hsub hi) c hc path hdata hnotOld
    by_cases hsame : "es" = commit.extension ∧ t = tableName
    swap
    · exact ⟨item, by rw [hwork.others "es" t (not_and_or.mp hsame)]; exact hitem, hpathItem⟩
    -- the commit is for this table's work, so it covered the checkpoint as well
    obtain ⟨hext, rfl⟩ := hsame
    have hmem : checkpointKey t i ∈ ids.map (checkpointKey t) := by
      rw [hids, ← hext]
      exact mem_map_of_mem (hsub hi)
    rw [if_pos hmem, hext] at hnot
    have hnotFile : path ∉ commit.files.keys := fun hfile =>
      hnot ((c.mem_extensionMap_addCoverage commit hdata).mpr (Or.inr (AList.mem_keys.mpr hfile)))
    rw [hext] at hitem
    obtain ⟨item', hitem', hspeedboat, hiceberg⟩ := hwork.some item hitem
    refine ⟨item', by rw [hext]; exact hitem', ?_⟩
    rw [ExtensionWorkItem.paths, remove_filePaths hspeedboat, remove_filePaths hiceberg, ← filter_append]
    exact mem_filter.mpr ⟨hpathItem, by simpa using hnotFile⟩

end WorkKept

end CoverageRecords

namespace EphemeralServiceImpl

open CoverageRecords

variable {s s' : EphemeralServiceImpl} {tableName : String} {commit : ExtensionCommit}
  {latest : TableMetadataCheckpoint}

/-! ### Conditions on a step -/

def infoInOrder (s : EphemeralServiceImpl) (info : SpeedboatCommitTableInfo) : Bool :=
  (s.getCheckpointSync info.tableName s.nextId.1).isNone &&
    decide (info.commitType = "delete" ∨ info.sizes.length = info.files.length)

/-- The step condition. File sets arrive in order; a commit's checkpoint gets a key that is not in use;
a checkpoint that is added without extension metadata has every data file of the one that is stored
under its key, if there is one. -/
def inOrder (s : EphemeralServiceImpl) : ServiceCall → Bool
  | .speedboatCommit commit =>
    decide (Run.Along speedboatCommitTableInfo (fun s info => s.infoInOrder info = true) s commit.typeFiles)
  | .icebergCommit tableName commit => (s.getCheckpointSync tableName s.nextId.1).isNone &&
      decide commit.metadata.files.Wf
  | .addCheckpoint metadata => decide metadata.FilesWf && (decide (metadata.extensionMetadata.keys ≠ []) ||
        (s.getCheckpointSync metadata.tableName metadata.checkpointId).all fun c =>
          (c.icebergPaths ++ c.speedboatPaths).all fun path =>
            path ∈ metadata.speedboatPaths ++ metadata.icebergPaths)
  | _ => true

/-! ### Steps -/

theorem filesWf_latest {schema : Option PowdrrSchema} (hinv : s.records.WorkKept)
    (h : s.latestCheckpoint tableName schema = some latest) : latest.FilesWf := by
  rcases latestCheckpoint_base h with ⟨id, -, hlookup⟩ | ⟨-, hiceberg, hspeedboat, -⟩
  · exact hinv.storedWf _ latest hlookup
  · unfold TableMetadataCheckpoint.FilesWf TableMetadataCheckpoint.icebergFiles
      TableMetadataCheckpoint.speedboatFiles
    rw [hiceberg, hspeedboat]
    exact ⟨wf_new, wf_new⟩

section

variable {pre c : TableMetadataCheckpoint} {speedboatFiles icebergFiles : FileSetPayload}
  (h : NextCheckpoint s tableName latest pre c speedboatFiles icebergFiles)
  (hinv : s.records.WorkKept) (hfree : (s.getCheckpointSync tableName s.nextId.1).isNone = true)
  (hwf : pre.FilesWf)

include h hinv hfree hwf

theorem NextCheckpoint.workKept : (s.records.commit tableName s.nextId.1 c).WorkKept := by
  obtain ⟨extensionMetadata, heq⟩ := h.filled.eq
  have hcwf : c.FilesWf := by
    rw [heq]
    exact hwf
  exact hinv.store (Option.isNone_iff_eq_none.mp hfree) hcwf rfl rfl rfl

theorem NextCheckpoint.workKept_queued {r' : CoverageRecords}
    (hq : (s.records.commit tableName s.nextId.1 c).Queued tableName s.nextId.1 speedboatFiles
      icebergFiles r') : r'.WorkKept :=
  (h.workKept hinv hfree hwf).queued hq (update_self _ _ _) h.filled.speedboatWf
    h.filled.icebergWf (h.filled.missing hwf.1 hwf.2)

end

theorem InfoStep.workKept {info : SpeedboatCommitTableInfo} (h : InfoStep s info s')
    (hinv : s.records.WorkKept) (hok : s.infoInOrder info = true) : s'.records.WorkKept := by
  obtain ⟨hfree, hsizes⟩ := Bool.and_eq_true_iff.mp hok
  cases h with
  | @commit latest pre c speedboatFiles icebergFiles htype hnext hfiles hiceberg hq =>
    obtain ⟨schema, hschema⟩ := hnext.base
    obtain ⟨hlatestIceberg, hlatestSpeedboat⟩ := filesWf_latest hinv hschema
    have hdelete : info.commitType ≠ "delete" := by
      rcases htype with htype | htype <;> rw [htype] <;> decide
    have hlength := (of_decide_eq_true hsizes).resolve_left hdelete
    have hwf : pre.FilesWf :=
      ⟨hiceberg ▸ hlatestIceberg, (committedSpeedboatFiles_spec hlatestSpeedboat hlength hfiles).1⟩
    exact hnext.workKept_queued hinv hfree hwf hq
  | @delete latest pre c speedboatFiles icebergFiles htype hnext hspeedboat hiceberg hrecords =>
    obtain ⟨schema, hschema⟩ := hnext.base
    obtain ⟨hlatestIceberg, hlatestSpeedboat⟩ := filesWf_latest hinv hschema
    have hwf : pre.FilesWf := ⟨hiceberg ▸ hlatestIceberg, hspeedboat ▸ hlatestSpeedboat⟩
    rw [hrecords]
    exact hnext.workKept hinv hfree hwf

theorem workKept_added {metadata : TableMetadataCheckpoint} {r' : CoverageRecords}
    (h : s.records.Added metadata r') (hinv : s.records.WorkKept)
    (hok : s.inOrder (.addCheckpoint metadata) = true) : r'.WorkKept := by
  obtain ⟨hfiles, hstored⟩ := Bool.and_eq_true_iff.mp hok
  have hwf : metadata.FilesWf := of_decide_eq_true hfiles
  -- the checkpoint under the key, and what it has uncovered
  obtain ⟨c, hc, hadd, hpaths⟩ : ∃ c, (s.records.add metadata).stored
      (checkpointKey metadata.tableName metadata.checkpointId) = some c ∧
      (s.records.add metadata).WorkKept ∧ (metadata.extensionMetadata.keys = [] →
        ∀ path ∈ c.icebergPaths ++ c.speedboatPaths, path ∈ metadata.speedboatPaths ++ metadata.icebergPaths) := by
    cases hold : s.records.stored (checkpointKey metadata.tableName metadata.checkpointId) with
    | none =>
      have hupdate : (s.records.add metadata).stored = Function.update s.records.stored
          (checkpointKey metadata.tableName metadata.checkpointId) (some metadata) := by
        simp [CoverageRecords.add, hold]
      refine ⟨metadata, by rw [hupdate, update_self],
        hinv.store hold hwf hupdate rfl rfl, fun _ path hpath => ?_⟩
      exact mem_append.mpr (mem_append.mp hpath).symm
    | some c =>
      have hsame : (s.records.add metadata).stored = s.records.stored := by
        simp [CoverageRecords.add, hold]
      refine ⟨c, by rw [hsame, hold], hinv.congr hsame rfl rfl, fun hkeys path hpath => ?_⟩
      have hlookup : s.getCheckpointSync metadata.tableName metadata.checkpointId = some c := hold
      rw [hkeys, hlookup, Option.all_some] at hstored
      have hall : ((c.icebergPaths ++ c.speedboatPaths).all fun path =>
          path ∈ metadata.speedboatPaths ++ metadata.icebergPaths) = true := by simpa using hstored
      exact of_decide_eq_true (all_eq_true.mp hall path hpath)
  cases h with
  | frontiers => exact hadd
  | work hkeys hq => exact hadd.queued hq hc hwf.2 hwf.1 fun path hpath _ => hpaths hkeys path hpath

/-- **One step.** A step that meets the condition loses no work. -/
theorem workKept_step {c : TimedCall} (hinv : s.records.WorkKept) (hok : s.inOrder c.call = true)
    (hstep : s.step c = some s') : s'.records.WorkKept := by
  have h := step_coverageStep hstep
  generalize c.call = call at h hok
  cases h with
  | other heq => exact hinv.congr (by rw [heq]) (by rw [heq]) (by rw [heq])
  | speedboat hmid heq =>
    rw [heq]
    exact Run.exec_invariant (P := fun s => s.records.WorkKept)
      (fun _ _ _ hinv hok h => (infoStep_of_speedboatCommitTableInfo h).workKept hinv hok) hinv
      (of_decide_eq_true hok) hmid
  | iceberg h =>
    obtain ⟨hfree, hfiles⟩ := Bool.and_eq_true_iff.mp hok
    obtain ⟨schema, hschema⟩ := h.next.base
    have hwf := And.intro (h.files ▸ of_decide_eq_true hfiles) (h.wf (filesWf_latest hinv hschema).2)
    exact h.next.workKept_queued hinv hfree hwf h.queued
  | extension h => exact hinv.extended rfl h.stored_eq h.waiting_eq h.work
  | add h => exact workKept_added h hinv hok

variable {mode : CompactionMode} {ids : IdInstance} {calls : List TimedCall}

theorem workKept_of_exec (hok : Run.Along step (fun s c => s.inOrder c.call = true) (new mode ids) calls)
    (hrun : Run.exec step (new mode ids) calls = some s) : s.records.WorkKept := by
  have hnew : (new mode ids).records.WorkKept := by
    refine ⟨nofun, fun e t item h => ?_, fun _ h => absurd rfl h, nofun, nofun⟩
    rw [work_new] at h
    cases h
  exact Run.exec_invariant (P := fun s => s.records.WorkKept)
    (fun _ _ _ hinv hok h => workKept_step hinv hok h) hnew hok hrun

/-- **No extension work is lost.** In every run whose steps meet the condition, what waits, waits for
`"es"`, and every data file of a waiting checkpoint that has no coverage is in the table's work item. -/
theorem uncovered_outstanding_of_exec (hok : Run.Along step (fun s c => s.inOrder c.call = true) (new mode ids) calls)
    (hrun : Run.exec step (new mode ids) calls = some s) {key : String} {waiting : List String}
    (hkey : s.checkpointsNeedingExtensionWork.lookup key = some waiting) (hne : waiting ≠ []) :
    ∃ tableName, key = extensionWorkKey tableName "es" ∧
      ∀ id ∈ waiting, ∃ c, s.getCheckpointSync tableName id = some c ∧
        ∀ path ∈ c.icebergPaths ++ c.speedboatPaths, path ∉ c.extensionMap "es" →
          ∃ tracker, ((s.extensionWorkItems.lookup "es").bind (·.lookup tableName)) = some tracker ∧
            path ∈ tracker.workItem.paths := by
  have hinv := workKept_of_exec hok hrun
  have hwaiting : s.records.waiting key = waiting := by simp [records, Dict.getD, hkey]
  obtain ⟨tableName, rfl⟩ := hinv.forEs key (by rw [hwaiting]; exact hne)
  refine ⟨tableName, rfl, fun id hid => ?_⟩
  rw [← hwaiting] at hid
  obtain ⟨c, hc⟩ := Option.isSome_iff_exists.mp (hinv.stored tableName id hid)
  refine ⟨c, hc, fun path hpath hnot => ?_⟩
  obtain ⟨item, hitem, hmem⟩ := hinv.kept tableName id hid c hc path hpath hnot
  obtain ⟨tracker, htracker, rfl⟩ := Option.map_eq_some_iff.mp hitem
  exact ⟨tracker, htracker, hmem⟩

def leasedMergeCalls : List TimedCall :=
  [⟨0, commitFile "t" "f1"⟩, ⟨0, .getExtensionWorkItems "es"⟩, ⟨1, commitFile "t" "f2"⟩, ⟨2, coverFile "t" "f1"⟩]

theorem uncovered_outstanding_of_exec_leasedMergeCalls :
    ∃ s, Run.exec step (new .disabled .counting) leasedMergeCalls = some s ∧
      s.checkpointsNeedingExtensionWork.lookup "t_es" = some ["3"] ∧
      ∃ tableName, "t_es" = extensionWorkKey tableName "es" ∧
        ∀ id ∈ ["3"], ∃ c, s.getCheckpointSync tableName id = some c ∧
          ∀ path ∈ c.icebergPaths ++ c.speedboatPaths, path ∉ c.extensionMap "es" →
            ∃ tracker, ((s.extensionWorkItems.lookup "es").bind (·.lookup tableName)) = some tracker ∧
              path ∈ tracker.workItem.paths := by
  exact Run.exists_end (p := fun s => s.checkpointsNeedingExtensionWork.lookup "t_es" = some ["3"])
    (by decide +kernel) fun s hs hwaiting =>
      ⟨hwaiting, uncovered_outstanding_of_exec (by decide +kernel) hs hwaiting (by decide)⟩

/-- A checkpoint that is added for one table and a commit to another whose key is the same text,
`"t_checkpoint_2"`. -/
def sharedKeyCalls : List TimedCall :=
  [⟨0, .addCheckpoint { tableName := "t", checkpointId := "checkpoint_2", schema := .minimal
                        speedboatMetadata := some ⟨.single "f1" 1 .minimal⟩ }⟩,
    ⟨0, commitFile "t_checkpoint" "f2"⟩]

/-- The waiting checkpoint of `"t"` is replaced by one with a file that is not outstanding for `"t"`. -/
theorem not_uncovered_outstanding_sharedKey : ∃ s, Run.exec step (new .disabled .counting) sharedKeyCalls = some s ∧
      s.checkpointsNeedingExtensionWork.lookup (extensionWorkKey "t" "es") = some ["checkpoint_2"] ∧
      ∃ c, s.getCheckpointSync "t" "checkpoint_2" = some c ∧ "f2" ∈ c.speedboatPaths ∧ "f2" ∉ c.extensionMap "es" ∧
        ∀ tracker, ((s.extensionWorkItems.lookup "es").bind (·.lookup "t")) = some tracker →
          "f2" ∉ tracker.workItem.paths := by
  decide +kernel

/-! ### When an extension commit goes through -/

def waitingFor (s : EphemeralServiceImpl) (tableName extension : String) : List String :=
  s.checkpointsNeedingExtensionWork.getD (extensionWorkKey tableName extension) []

def Completes (s : EphemeralServiceImpl) (tableName : String) (commit : ExtensionCommit) (id : String) : Prop :=
  ∃ c, s.getCheckpointSync tableName id = some c ∧ ∀ path ∈ c.icebergPaths ++ c.speedboatPaths,
    path ∈ c.extensionMap commit.extension ∨ path ∈ commit.files

theorem mem_completed {id : String} {ids : List String} :
    id ∈ s.records.completed tableName commit ids ↔ id ∈ ids ∧ s.Completes tableName commit id := by
  rw [completed, mem_filter, Option.any_eq_true]
  refine and_congr_right fun _ => exists_congr fun c => and_congr_right fun _ => ?_
  simp only [TableMetadataCheckpoint.validateFullyCoveredForExtension, all_eq_true, decide_eq_true_eq]
  exact forall₂_congr fun path hpath => c.mem_extensionMap_addCoverage commit hpath

theorem extensionCommit_eq_none_of_repeated
    (h : s.extensionCommit tableName commit = some s') : s'.extensionCommit tableName commit = none := by
  obtain ⟨maxId, hfirst⟩ := extensionStep_of_extensionCommit h
  by_contra hne
  obtain ⟨s'', hagain⟩ := Option.ne_none_iff_exists'.mp hne
  obtain ⟨maxId', hsecond⟩ := extensionStep_of_extensionCommit hagain
  have hcompleted : ∀ ids, s'.records.completed tableName commit ids = s.records.completed tableName commit ids := by
    intro ids
    rw [completed, hfirst.stored_eq]
    exact completed_cover _ _ _ _ _
  have hmax := (maxText_eq_some_iff.mp hsecond.max).1
  rw [hcompleted] at hmax
  obtain ⟨hwaiting, hcompletes⟩ := mem_completed.mp hmax
  rw [hfirst.waiting_eq] at hwaiting
  simp only [cover, if_true] at hwaiting
  obtain ⟨hold, hnot⟩ := mem_filter.mp hwaiting
  exact of_decide_eq_true hnot (mem_completed.mpr ⟨hold, hcompletes⟩)

/-- **When an extension commit goes through.** In every run whose steps meet the condition, a commit
goes through if and only if the waiting checkpoints are there and it completes one of them; a commit
that went through stops the service when it is repeated. -/
theorem extensionCommit_isSome_iff_of_exec (hok : Run.Along step (fun s c => s.inOrder c.call = true) (new mode ids) calls)
    (hrun : Run.exec step (new mode ids) calls = some s) (tableName : String) (commit : ExtensionCommit) :
    ((s.extensionCommit tableName commit).isSome ↔
      (∀ id ∈ s.waitingFor tableName commit.extension, (s.getCheckpointSync tableName id).isSome) ∧
      ∃ id ∈ s.waitingFor tableName commit.extension, s.Completes tableName commit id) ∧
    ∀ s', s.extensionCommit tableName commit = some s' → s'.extensionCommit tableName commit = none := by
  have hinv := workKept_of_exec hok hrun
  refine ⟨⟨fun hsome => ?_, ?_⟩, fun s' h => extensionCommit_eq_none_of_repeated h⟩
  · obtain ⟨s', hs'⟩ := Option.isSome_iff_exists.mp hsome
    obtain ⟨maxId, hstep⟩ := extensionStep_of_extensionCommit hs'
    exact ⟨hstep.stored, maxId, mem_completed.mp (maxText_eq_some_iff.mp hstep.max).1⟩
  · rintro ⟨hstored, id, hid, hcompletes⟩
    refine extensionCommit_isSome hstored ?_ (hinv.workWf _ _)
    exact ne_nil_of_mem (mem_completed.mpr ⟨hid, hcompletes⟩)

theorem extensionCommit_isSome_iff_of_exec_commitFile :
    ∃ s, Run.exec step (new .disabled .counting) [⟨0, commitFile "t" "f1"⟩] = some s ∧
      (s.waitingFor "t" "es" = ["1"] ∧ (s.getCheckpointSync "t" "1").isSome) ∧
      (s.extensionCommit "t" ⟨"work", "es", Dict.single "f1" []⟩).isSome := by
  refine Run.exists_end (p := fun s =>
    (s.waitingFor "t" "es" = ["1"] ∧ (s.getCheckpointSync "t" "1").isSome) ∧
    (∀ id ∈ s.waitingFor "t" "es", (s.getCheckpointSync "t" id).isSome) ∧
    ∃ id ∈ s.waitingFor "t" "es", ∃ c, s.getCheckpointSync "t" id = some c ∧
      ∀ path ∈ c.icebergPaths ++ c.speedboatPaths,
        path ∈ c.extensionMap "es" ∨ path ∈ (Dict.single "f1" [] : ExtensionFileMetadata)) (by decide +kernel) ?_
  rintro s hs ⟨hwaiting, hcovered⟩
  exact ⟨hwaiting, (extensionCommit_isSome_iff_of_exec (by decide +kernel) hs "t" _).1.mpr hcovered⟩

/-- Two workers claim the same item, the second one after the first one's lease has expired. -/
def claimedTwiceCalls : List TimedCall :=
  [⟨0, commitFile "t" "f1"⟩, ⟨0, .getExtensionWorkItems "es"⟩, ⟨60000, .getExtensionWorkItems "es"⟩,
    ⟨60001, coverFile "t" "f1"⟩]

/-- Two files are committed at once, and one of them is covered. -/
def partialCoverCalls : List TimedCall :=
  [⟨0, .speedboatCommit ⟨[.fromSegments "commit" "t" [⟨"s1", "f1", 1⟩, ⟨"s2", "f2", 1⟩] (some .minimal)], none⟩⟩]

/-- The second worker's commit stops the service, and so does a commit of part of the work. -/
theorem extensionCommit_stops : (∃ s, Run.exec step (new .disabled .counting) claimedTwiceCalls = some s ∧
      s.step ⟨60002, coverFile "t" "f1"⟩ = none) ∧
    ∃ s, Run.exec step (new .disabled .counting) partialCoverCalls = some s ∧
      s.step ⟨0, coverFile "t" "f1"⟩ = none := by
  decide +kernel

end EphemeralServiceImpl

end PowdrrEngine
