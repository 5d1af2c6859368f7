import PowdrrEngine.ServiceWork
import PowdrrEngine.SafetyExtensionWork
import PowdrrEngine.SafetyCleanup

/-! Iceberg commits and the compactions they name. A worker reports a compaction, and an iceberg commit
then carries it out: the work item is taken down and the consumed files are queued for cleanup. A
commit that names a compaction which is not pending stops the service, after the new checkpoint was
stored and the frontier moved; so does a repetition of a commit that went through, as a second worker
sends it once the lease of the first has expired. -/

namespace PowdrrEngine

open List Option Run

namespace EphemeralServiceImpl

variable {s s' : EphemeralServiceImpl} {speedboatFiles icebergFiles : FileSetPayload} {tableName compaction : String}
  {commit : IcebergCommit} {pre : TableMetadataCheckpoint} {compactions : List String} {schema : PowdrrSchema}

/-! ### Pending compactions -/

/-- A compaction that was reported and whose work item is still up. -/
def isPending (s : EphemeralServiceImpl) (compaction : String) : Bool :=
  (s.compactions.lookup compaction).any fun (tableName, commit) =>
    (s.compactionWorkItems.lookup tableName).any fun tracker =>
      decide (tracker.workItem.checkpointIdToReplace = commit.checkpointIdToReplace ∧ tracker.workItem.id = compaction)

theorem isPending_iff : s.isPending compaction = true ↔ ∃ tableName commit tracker,
      s.compactions.lookup compaction = some (tableName, commit) ∧
      s.compactionWorkItems.lookup tableName = some tracker ∧
      tracker.workItem.checkpointIdToReplace = commit.checkpointIdToReplace ∧
      tracker.workItem.id = compaction := by
  constructor
  · intro h
    obtain ⟨⟨tableName, commit⟩, hlookup, htracker⟩ := of_any h
    obtain ⟨tracker, htracker, hitem⟩ := of_any htracker
    exact ⟨tableName, commit, tracker, hlookup, htracker, of_decide_eq_true hitem⟩
  · rintro ⟨tableName, commit, tracker, hlookup, htracker, hitem⟩
    refine (any_eq_true _ _).mpr ⟨_, hlookup, (any_eq_true _ _).mpr ⟨_, htracker, ?_⟩⟩
    exact decide_eq_true hitem

theorem finishCompaction_eq_some_iff : s.finishCompaction compaction = some s' ↔ ∃ tableName commit tracker,
      s.compactions.lookup compaction = some (tableName, commit) ∧
      s.compactionWorkItems.lookup tableName = some tracker ∧
      (tracker.workItem.checkpointIdToReplace = commit.checkpointIdToReplace ∧ tracker.workItem.id = compaction) ∧
      s' = { s.nextId.2 with
        compactionWorkItems := s.compactionWorkItems.erase tableName
        cleanupWorkItems := s.cleanupWorkItems ++ [⟨⟨s.nextId.1, tableName,
          commit.removedSpeedboatFiles ++ commit.removedDeleteFiles⟩, none⟩] } := by
  simp only [finishCompaction, replaceAndDeleteCheckpoints, bind_eq_some]
  constructor
  · rintro ⟨⟨item, mid⟩, ⟨⟨tableName, commit⟩, hlookup, tracker, htracker, hreplace⟩, heq⟩
    split at hreplace
    · rename_i hitem
      cases hreplace
      exact ⟨tableName, commit, tracker, hlookup, htracker, hitem, (Option.some.inj heq).symm⟩
    · cases hreplace
  · rintro ⟨tableName, commit, tracker, hlookup, htracker, hitem, rfl⟩
    exact ⟨_, ⟨_, hlookup, tracker, htracker, if_pos hitem⟩, rfl⟩

theorem isPending_finishCompaction (h : s.finishCompaction compaction = some s')
    (other : String) : s'.isPending other = true ↔ other ≠ compaction ∧ s.isPending other = true := by
  obtain ⟨tableName, commit, tracker, hlookup, htracker, ⟨-, hid⟩, rfl⟩ := finishCompaction_eq_some_iff.mp h
  rw [isPending_iff, isPending_iff]
  constructor
  · rintro ⟨t, c, tr, hother, hwork, hitem⟩
    rw [Dict.lookup_erase_eq] at hwork
    split at hwork
    · cases hwork
    rename_i hne
    refine ⟨?_, t, c, tr, hother, hwork, hitem⟩
    rintro rfl
    obtain ⟨rfl, -⟩ := Prod.mk.inj (Option.some.inj (hlookup.symm.trans hother))
    exact hne rfl
  · rintro ⟨hne, t, c, tr, hother, hwork, hitem⟩
    refine ⟨t, c, tr, hother, ?_, hitem⟩
    rw [Dict.lookup_erase_eq, if_neg, hwork]
    rintro rfl
    cases htracker.symm.trans hwork
    exact hne (hitem.2.symm.trans hid)

theorem finishCompactions_isSome_iff (compactions : List String) : (compactions.foldlM finishCompaction s).isSome ↔
      compactions.Nodup ∧ ∀ compaction ∈ compactions, s.isPending compaction = true := by
  induction compactions generalizing s with
  | nil => simp
  | cons compaction compactions ih =>
    rw [foldlM_cons, nodup_cons, forall_mem_cons]
    cases hfirst : s.finishCompaction compaction with
    | none =>
      have hnot : ¬ s.isPending compaction = true := by
        intro hpending
        obtain ⟨t, c, tr, hlookup, hwork, hitem⟩ := isPending_iff.mp hpending
        have hsome := finishCompaction_eq_some_iff.mpr ⟨t, c, tr, hlookup, hwork, hitem, rfl⟩
        rw [hfirst] at hsome
        cases hsome
      exact iff_of_false (by simp) fun h => hnot h.2.1
    | some mid =>
      have hpending : s.isPending compaction = true := by
        obtain ⟨t, c, tr, hlookup, hwork, hitem, -⟩ := finishCompaction_eq_some_iff.mp hfirst
        exact isPending_iff.mpr ⟨t, c, tr, hlookup, hwork, hitem⟩
      have hrest := isPending_finishCompaction hfirst
      change (compactions.foldlM finishCompaction mid).isSome ↔ _
      rw [ih]
      constructor
      · rintro ⟨hnodup, hall⟩
        refine ⟨⟨fun hmem => ((hrest _).mp (hall _ hmem)).1 rfl, hnodup⟩, hpending, ?_⟩
        exact fun other hmem => ((hrest other).mp (hall other hmem)).2
      · rintro ⟨⟨hnot, hnodup⟩, -, hall⟩
        refine ⟨hnodup, fun other hmem => (hrest other).mpr ⟨?_, hall other hmem⟩⟩
        rintro rfl
        exact hnot hmem

/-! ### The parts of an iceberg commit -/

theorem handleCompactions_isSome (checkpoint : TableMetadataCheckpoint) (hwf : checkpoint.speedboatFiles.Wf)
    (hknown : ∀ compaction ∈ compactions, (s.compactions.lookup compaction).isSome) :
    (s.handleCompactions compactions checkpoint).isSome := by
  induction compactions generalizing checkpoint with
  | nil => rfl
  | cons compaction compactions ih =>
    obtain ⟨⟨tableName, commit⟩, hlookup⟩ := isSome_iff_exists.mp (hknown compaction mem_cons_self)
    have hremove : (removeSpeedboatFiles checkpoint.speedboatMetadata commit.removedSpeedboatFiles).isSome := by
      unfold TableMetadataCheckpoint.speedboatFiles at hwf
      unfold removeSpeedboatFiles
      split
      · rename_i speedboat hspeedboat
        rw [hspeedboat] at hwf
        obtain ⟨files, hfiles, -⟩ := hwf.remove commit.removedSpeedboatFiles
        rw [hfiles]
        rfl
      · rfl
    obtain ⟨speedboat, hspeedboat⟩ := isSome_iff_exists.mp hremove
    have hfirst : (s.handleCompaction compaction checkpoint).isSome := by
      simp only [handleCompaction, bind_eq_bind, hlookup, bind_some, hspeedboat]
      rfl
    obtain ⟨mid, hmid⟩ := isSome_iff_exists.mp hfirst
    obtain ⟨-, -, -, hmidWf⟩ := handleCompaction_spec hmid
    rw [handleCompactions, foldlM_cons, bind_eq_bind, hmid, bind_some]
    exact ih mid (hmidWf hwf) fun other hmem => hknown other (mem_cons_of_mem _ hmem)

theorem missing_of_tryFill {c : TableMetadataCheckpoint}
    (h : s.tryFillCheckpointExtensionMetadata "es" pre = some (c, speedboatFiles, icebergFiles)) :
    ∃ iceberg speedboat, pre.icebergFiles.asFileTuples = some iceberg ∧
      pre.speedboatFiles.asFileTuples = some speedboat ∧
      (∀ path, path ∈ icebergFiles.filePaths ↔ path ∈ iceberg.map (·.filePath) ∧
        (s.recentFileExtensionMetadata.lookup (recentFileKey pre.tableName "es" path)).isSome = false) ∧
      ∀ path, path ∈ speedboatFiles.filePaths ↔ path ∈ speedboat.map (·.filePath) ∧
        (s.recentFileExtensionMetadata.lookup (recentFileKey pre.tableName "es" path)).isSome = false := by
  simp only [tryFillCheckpointExtensionMetadata, bind_eq_some] at h
  obtain ⟨iceberg, hiceberg, speedboat, hspeedboat, heq⟩ := h
  have hfiles := congrArg Prod.snd (Option.some.inj heq)
  obtain ⟨rfl, rfl⟩ := Prod.mk.inj hfiles
  exact ⟨iceberg, speedboat, hiceberg, hspeedboat,
    fun path => (s.fillFromRecent_spec pre.tableName "es" iceberg _ path).2.1,
    fun path => (s.fillFromRecent_spec pre.tableName "es" speedboat _ path).2.1⟩

theorem idle_of_subset {pre₀ c₀ c : TableMetadataCheckpoint} {speedboatFiles₀ icebergFiles₀ : FileSetPayload}
    (h₀ : s.tryFillCheckpointExtensionMetadata "es" pre₀ = some (c₀, speedboatFiles₀, icebergFiles₀))
    (h : s.tryFillCheckpointExtensionMetadata "es" pre = some (c, speedboatFiles, icebergFiles))
    (htable : pre.tableName = pre₀.tableName) (hiceberg : pre.icebergFiles = pre₀.icebergFiles)
    (hwf₀ : pre₀.speedboatFiles.Wf) (hwf : pre.speedboatFiles.Wf) (hsub : pre.speedboatPaths ⊆ pre₀.speedboatPaths)
    (hidle : speedboatFiles₀.len = 0 ∧ icebergFiles₀.len = 0) :
    speedboatFiles.len = 0 ∧ icebergFiles.len = 0 := by
  obtain ⟨iceberg₀, speedboat₀, hi₀, hs₀, hicebergMissing₀, hmissing₀⟩ := missing_of_tryFill h₀
  obtain ⟨iceberg, speedboat, hi, hs, hicebergMissing, hmissing⟩ := missing_of_tryFill h
  obtain ⟨tuples₀, htuples₀, hpaths₀⟩ := hwf₀.asFileTuples
  obtain ⟨tuples, htuples, hpaths⟩ := hwf.asFileTuples
  cases hs₀.symm.trans htuples₀
  cases hs.symm.trans htuples
  rw [hiceberg] at hi
  cases hi₀.symm.trans hi
  have hnil : ∀ {p : FileSetPayload}, p.len = 0 ↔ ∀ path, path ∉ p.filePaths := by
    intro p
    rw [FileSetPayload.len, length_eq_zero_iff, eq_nil_iff_forall_not_mem]
  rw [hnil, hnil] at hidle ⊢
  rw [htable] at hmissing hicebergMissing
  constructor
  · intro path hpath
    obtain ⟨hmem, hunknown⟩ := (hmissing path).mp hpath
    rw [hpaths] at hmem
    refine hidle.1 path ((hmissing₀ path).mpr ⟨?_, hunknown⟩)
    rw [hpaths₀]
    exact hsub hmem
  · intro path hpath
    exact hidle.2 path ((hicebergMissing₀ path).mpr ((hicebergMissing path).mp hpath))

theorem fillExtensionWorkItem_isSome (checkpointId : String) (schema : PowdrrSchema)
    (hplace : (speedboatFiles.len = 0 ∧ icebergFiles.len = 0) ∨ "es" ∈ s.extensionWorkItems)
    (hwork : ∀ item, s.records.work "es" tableName = some item →
      item.speedboatFiles.Wf ∧ item.icebergFiles.Wf) (hspeedboat : speedboatFiles.Wf) (hiceberg : icebergFiles.Wf) :
    (s.fillExtensionWorkItem tableName "es" checkpointId schema speedboatFiles icebergFiles).isSome := by
  unfold fillExtensionWorkItem
  split
  · rfl
  rename_i hsome
  obtain ⟨items, hitems⟩ := isSome_iff_exists.mp (AList.lookup_isSome.mpr (hplace.resolve_left hsome))
  simp only [hitems, bind_eq_bind, bind_some]
  have hrecords : s.records.work "es" tableName = (items.lookup tableName).map (·.workItem) := by
    simp [records, hitems]
  rw [hrecords] at hwork
  cases htracker : items.lookup tableName with
  | none => rfl
  | some tracker =>
    obtain ⟨hspeedboatWf, hicebergWf⟩ := hwork tracker.workItem (by rw [htracker]; rfl)
    obtain ⟨_, hs, -⟩ := hspeedboatWf.merge hspeedboat
    obtain ⟨_, hi, -⟩ := hicebergWf.merge hiceberg
    simp only [extensionTracker, bind_eq_bind, hs, hi, bind_some]
    rfl

theorem isPending_fillExtensionWorkItem {extension checkpointId : String}
    (h : s.fillExtensionWorkItem tableName extension checkpointId schema speedboatFiles icebergFiles =
      some s') : s'.isPending = s.isPending := by
  unfold fillExtensionWorkItem at h
  split at h
  · cases h
    rfl
  simp only [bind_eq_some] at h
  obtain ⟨items, -, tracker, -, heq⟩ := h
  cases heq
  have hdraw : (s.drawTrackerId items tableName).2.isPending = s.isPending := by
    unfold drawTrackerId
    split <;> rfl
  exact hdraw

/-! ### When an iceberg commit goes through -/

theorem isPending_of_icebergCommit (h : s.icebergCommit tableName commit = some s') :
    commit.compactions.Nodup ∧ ∀ compaction ∈ commit.compactions, s.isPending compaction = true := by
  simp only [icebergCommit, bind_eq_some] at h
  obtain ⟨latest, -, schema, -, pre, -, ⟨c, sf, icf⟩, -, s1, hwork, s2, hfinish, -⟩ := h
  have hpending := isPending_fillExtensionWorkItem hwork
  change s1.isPending = s.isPending at hpending
  rw [← hpending]
  exact (finishCompactions_isSome_iff _).mp (by rw [hfinish]; rfl)

theorem icebergCommit_isSome (hkept : s.records.WorkKept)
    (hbase : (s.icebergCommit tableName { commit with compactions := [] }).isSome)
    (hnodup : commit.compactions.Nodup)
    (hpending : ∀ compaction ∈ commit.compactions, s.isPending compaction = true) :
    (s.icebergCommit tableName commit).isSome := by
  obtain ⟨s0, hs0⟩ := isSome_iff_exists.mp hbase
  simp only [icebergCommit, bind_eq_some] at hs0
  obtain ⟨latest, hlatest, schema, hschema, pre0, hpre0, ⟨c0, sf0, icf0⟩, hfill0, s1, hwork0, -⟩ := hs0
  cases hpre0
  obtain ⟨-, hspeedboatWf⟩ := filesWf_latest hkept hlatest
  -- the checkpoint without the consumed files
  have hknown : ∀ compaction ∈ commit.compactions, (s.nextId.2.compactions.lookup compaction).isSome := by
    intro compaction hmem
    obtain ⟨t, report, -, hlookup, -⟩ := isPending_iff.mp (hpending compaction hmem)
    exact isSome_iff_exists.mpr ⟨_, hlookup⟩
  obtain ⟨pre, hpre⟩ := isSome_iff_exists.mp (handleCompactions_isSome { latest with
    tableName, originalCheckpointId := none, checkpointId := s.nextId.1
    icebergMetadata := some commit.metadata, schema } hspeedboatWf hknown)
  obtain ⟨hiceberg, hpaths, -, hwf⟩ := handleCompactions_spec hpre
  obtain ⟨htable, -, -⟩ := handleCompactions_coverage hpre
  -- its files can be listed, and leave no work where those of the commit without compactions leave none
  obtain ⟨iceberg, -, hicebergTuples, -⟩ := missing_of_tryFill hfill0
  have hicebergFiles : pre.icebergFiles = commit.metadata.files := by
    rw [TableMetadataCheckpoint.icebergFiles, hiceberg]
  obtain ⟨speedboat, hspeedboat, -⟩ := (hwf hspeedboatWf).asFileTuples
  obtain ⟨⟨c, sf, icf⟩, hfill⟩ : ∃ p, s.nextId.2.tryFillCheckpointExtensionMetadata "es" pre = some p := by
    change ∃ p, (pre.icebergFiles.asFileTuples.bind fun _ => pre.speedboatFiles.asFileTuples.bind _) = some p
    rw [(congrArg _ hicebergFiles).trans hicebergTuples, bind_some, hspeedboat]
    exact ⟨_, rfl⟩
  have hfilled := filled_of_tryFill hfill
  have hplace : (sf.len = 0 ∧ icf.len = 0) ∨ "es" ∈ s.extensionWorkItems := by
    unfold fillExtensionWorkItem at hwork0
    split at hwork0
    · refine Or.inl (idle_of_subset hfill0 hfill htable hicebergFiles hspeedboatWf (hwf hspeedboatWf) ?_ ‹_›)
      rw [hpaths]
      exact fun path hpath => mem_of_mem_filter hpath
    · simp only [bind_eq_some] at hwork0
      obtain ⟨items, hitems, -⟩ := hwork0
      exact Or.inr (AList.lookup_isSome.mp (Option.isSome_of_mem hitems))
  let stored := (s.nextId.2.storeCheckpoint tableName s.nextId.1 c).setLatestCommittedCheckpoint
    tableName none s.nextId.1
  obtain ⟨s2, hwork⟩ := isSome_iff_exists.mp (fillExtensionWorkItem_isSome (s := stored)
    s.nextId.1 schema hplace (hkept.workWf "es" tableName) hfilled.speedboatWf hfilled.icebergWf)
  have hsame := isPending_fillExtensionWorkItem hwork
  obtain ⟨s3, hfinish⟩ := isSome_iff_exists.mp
    ((finishCompactions_isSome_iff (s := s2) commit.compactions).mpr ⟨hnodup, hsame ▸ hpending⟩)
  refine isSome_iff_exists.mpr ⟨s3.queuePublicationRequest defaultMetadataNamespace tableName, ?_⟩
  simp only [icebergCommit, bind_eq_some]
  exact ⟨latest, hlatest, schema, hschema, pre, hpre, (c, sf, icf), hfill, s2, hwork, s3, hfinish, rfl⟩

/-! ### A compaction is committed once -/

theorem retired_finishCompactions {c : TimedCall} (hcommit : c.call.isCommit) (hdistinct : s.board.Distinct)
    (h : compactions.foldlM finishCompaction s = some s') :
    ∀ compaction ∈ compactions, s'.board.Retired compaction := by
  induction compactions generalizing s with
  | nil => simp
  | cons compaction compactions ih =>
    obtain ⟨mid, hmid, hrest⟩ := bind_eq_some_iff.mp h
    have hops := ((compactionOps_finishCompaction hmid).commitOps hcommit).boardOps
    have hops' := ((compactionOps_finishCompactions hrest).commitOps hcommit).boardOps
    refine forall_mem_cons.mpr ⟨WorkBoard.Retired.ops ?_ hops', ih (hdistinct.ops hops) hrest⟩
    obtain ⟨tableName, commit, tracker, -, htracker, ⟨-, hid⟩, rfl⟩ := finishCompaction_eq_some_iff.mp hmid
    have hheld : s.board.held (.compaction tableName) = some (compaction, tracker.leaseExpiresAtMs) := by
      simp [board, htracker, hid]
    have hretired := hdistinct.retired_release hheld
    rw [← board_eraseCompaction] at hretired
    exact hretired.ops (c := c) (ops_addCleanup _ _)

theorem not_isPending_of_retired (h : s.board.Retired compaction) : s.isPending compaction = false := by
  refine Bool.eq_false_iff.mpr fun hpending => ?_
  obtain ⟨tableName, -, tracker, -, htracker, -, hid⟩ := isPending_iff.mp hpending
  refine h.gone (.compaction tableName) (tracker.workItem.id, tracker.leaseExpiresAtMs) ?_ hid
  simp [board, htracker]

theorem icebergCommit_eq_none_of_repeated {s'' : EphemeralServiceImpl} {tableName' : String}
    {commit' : IcebergCommit} {more : List TimedCall} (hdistinct : s.board.Distinct)
    (h : s.icebergCommit tableName commit = some s') (hmore : Run.exec step s' more = some s'')
    (hmem : compaction ∈ commit.compactions)
    (hmem' : compaction ∈ commit'.compactions) : s''.icebergCommit tableName' commit' = none := by
  simp only [icebergCommit, bind_eq_some] at h
  obtain ⟨latest, -, schema, -, pre, -, ⟨c, sf, icf⟩, -, s1, hwork, s2, hfinish, heq⟩ := h
  cases heq
  let call : TimedCall := ⟨0, .icebergCommit tableName commit⟩
  have hcommit : call.call.isCommit := rfl
  have hfill : WorkBoard.Ops call s.board.draw s1.board := (commitOps_fillExtensionWorkItem hcommit hwork).boardOps
  have hdistinct1 : s1.board.Distinct := hdistinct.ops (hfill.head (.draw _))
  have hretired : (s2.queuePublicationRequest defaultMetadataNamespace tableName).board.Retired compaction :=
    retired_finishCompactions hcommit hdistinct1 hfinish compaction hmem
  have hlater := retired_of_exec hretired hmore
  refine eq_none_iff_forall_ne_some.mpr fun t ht => ?_
  have hpending := (isPending_of_icebergCommit ht).2 compaction hmem'
  rw [not_isPending_of_retired hlater] at hpending
  cases hpending

/-- **When an iceberg commit goes through.** In every state that calls in order reach, a commit that
would go through without its compactions goes through exactly if every compaction it names is pending
and named once; and from then on no commit that names one of them goes through. -/
theorem icebergCommit_isSome_iff_of_exec {mode : CompactionMode} {ids : IdInstance} {calls : List TimedCall}
    (hok : Run.Along step (fun s c => s.inOrder c.call = true) (new mode ids) calls)
    (hrun : Run.exec step (new mode ids) calls = some s) {tableName : String} {commit : IcebergCommit}
    (hbase : (s.icebergCommit tableName { commit with compactions := [] }).isSome) :
    ((s.icebergCommit tableName commit).isSome ↔ commit.compactions.Nodup ∧
      ∀ compaction ∈ commit.compactions, s.isPending compaction = true) ∧
    ∀ s' more s'', s.icebergCommit tableName commit = some s' → Run.exec step s' more = some s'' →
      ∀ compaction ∈ commit.compactions, ∀ tableName' commit', compaction ∈ commit'.compactions →
        s''.icebergCommit tableName' commit' = none := by
  refine ⟨⟨fun h => ?_, fun h => icebergCommit_isSome (workKept_of_exec hok hrun) hbase h.1 h.2⟩, ?_⟩
  · obtain ⟨s', hs'⟩ := isSome_iff_exists.mp h
    exact isPending_of_icebergCommit hs'
  · intro s' more s'' hs' hmore compaction hmem tableName' commit' hmem'
    exact icebergCommit_eq_none_of_repeated (distinct_of_exec hrun) hs' hmore hmem hmem'

/-- The commit of the compaction `"3"` of the table `logs`. -/
def logsIcebergCommit : IcebergCommit := ⟨CleanupMonitor.partOne, none, ["3"]⟩

theorem icebergCommit_isSome_iff_of_exec_logs :
    ∃ s s', Run.exec step (new (.async (some 1)) .counting) (CleanupMonitor.compactedLogs.take 2) = some s ∧
      s.icebergCommit "logs" logsIcebergCommit = some s' ∧
      s'.icebergCommit "logs" logsIcebergCommit = none := by
  obtain ⟨s, hs, hbase, hpending⟩ : ∃ s, Run.exec step (new (.async (some 1)) .counting)
      (CleanupMonitor.compactedLogs.take 2) = some s ∧
        (s.icebergCommit "logs" { logsIcebergCommit with compactions := [] }).isSome ∧
        logsIcebergCommit.compactions.Nodup ∧
        ∀ compaction ∈ logsIcebergCommit.compactions, s.isPending compaction = true := by decide +kernel
  obtain ⟨hiff, hrepeated⟩ := icebergCommit_isSome_iff_of_exec (by decide +kernel) hs hbase
  obtain ⟨s', hs'⟩ := isSome_iff_exists.mp (hiff.mpr hpending)
  have hmem : "3" ∈ logsIcebergCommit.compactions := by decide
  exact ⟨s, s', hs, hs', hrepeated s' [] s' hs' rfl "3" hmem "logs" logsIcebergCommit hmem⟩

/-- Once the compaction `"3"` is committed, a second commit of it and one of an unknown compaction
both stop the service, where the same commit without compactions goes through. -/
theorem icebergCommit_stops :
    ∃ s, Run.exec step (new (.async (some 1)) .counting) CleanupMonitor.compactedLogs = some s ∧
      s.icebergCommit "logs" logsIcebergCommit = none ∧
      s.icebergCommit "logs" { logsIcebergCommit with compactions := ["9"] } = none ∧
      (s.icebergCommit "logs" { logsIcebergCommit with compactions := [] }).isSome := by
  decide +kernel

end EphemeralServiceImpl

end PowdrrEngine
