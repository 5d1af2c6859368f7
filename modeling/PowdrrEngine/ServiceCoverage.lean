import PowdrrEngine.ServiceEffects

/-! The records behind extension coverage: the frontiers, the stored checkpoints, the checkpoints that
wait for `"es"` and the files each table has outstanding. They are read as lookups here, leases left
aside, and every call is described by what it does to them. The invariants about frontiers and about
outstanding work use these descriptions and nothing else of the functions behind them. -/

namespace PowdrrEngine

open List Run TableMetadataCheckpoint

/-- What the service records about coverage: the table behind a name, the latest committed checkpoint
of an extension and a table, the checkpoint under a key, the ids that wait under a key, and the
outstanding work of an extension and a table. -/
@[ext]
structure CoverageRecords where
  realName : String → String
  frontier : Option String → String → Option String
  stored : String → Option TableMetadataCheckpoint
  waiting : String → List String
  work : String → String → Option ExtensionWorkItem

namespace CoverageRecords

open EphemeralServiceImpl

variable (r : CoverageRecords) {speedboatFiles icebergFiles : FileSetPayload} (tableName id : String)

def store (c : TableMetadataCheckpoint) : CoverageRecords :=
  { r with stored := Function.update r.stored (checkpointKey tableName id) (some c) }

def setFrontier (extension : Option String) (tableName id : String) : CoverageRecords :=
  { r with frontier := fun e t => if e = extension ∧ t = tableName then some id else r.frontier e t }

def queue (item : ExtensionWorkItem) : CoverageRecords :=
  let key := extensionWorkKey tableName "es"
  { r with
    waiting := Function.update r.waiting key (r.waiting key ++ [id])
    work := fun e t => if e = "es" ∧ t = tableName then some item else r.work e t }

/-- The files of a work item: those that were given, merged into the old ones where there are any. -/
def Merged (old : Option ExtensionWorkItem) (speedboatFiles icebergFiles : FileSetPayload)
    (item : ExtensionWorkItem) : Prop :=
  match old with
  | none => item.speedboatFiles = speedboatFiles ∧ item.icebergFiles = icebergFiles
  | some old => old.speedboatFiles.merge speedboatFiles = some item.speedboatFiles ∧
      old.icebergFiles.merge icebergFiles = some item.icebergFiles

/-- The records after the files without coverage became work; where there are none, nothing waits. -/
inductive Queued (tableName id : String) (speedboatFiles icebergFiles : FileSetPayload) : CoverageRecords → Prop
  | idle : speedboatFiles.len = 0 → icebergFiles.len = 0 → Queued tableName id speedboatFiles icebergFiles r
  | work {item} : Merged (r.work "es" tableName) speedboatFiles icebergFiles item →
      Queued tableName id speedboatFiles icebergFiles (r.queue tableName id item)

theorem Queued.realName {r r' : CoverageRecords} {tableName id : String}
    (h : r.Queued tableName id speedboatFiles icebergFiles r') : r'.realName = r.realName := by
  cases h <;> rfl

theorem Queued.stored {r r' : CoverageRecords} {tableName id : String}
    (h : r.Queued tableName id speedboatFiles icebergFiles r') : r'.stored = r.stored := by
  cases h <;> rfl

/-- The records after a checkpoint was stored for a table and became its latest committed one. -/
def commit (c : TableMetadataCheckpoint) : CoverageRecords :=
  (r.store tableName id c).setFrontier none (r.realName tableName) id

/-! ### Extension commits -/

variable (commit : ExtensionCommit)

def completed (ids : List String) : List String :=
  ids.filter fun id => (r.stored (checkpointKey tableName id)).any fun c =>
    (c.addCoverage commit).validateFullyCoveredForExtension commit.extension

def cover (ids : List String) : CoverageRecords :=
  { r with
    stored := fun key => if key ∈ ids.map (checkpointKey tableName) then
      (r.stored key).map (·.addCoverage commit) else r.stored key
    waiting := fun key => if key = extensionWorkKey tableName commit.extension then
      (r.waiting key).filter (· ∉ r.completed tableName commit ids) else r.waiting key }

theorem completed_cover (ids ids' : List String) : (r.cover tableName commit ids').completed tableName commit ids =
      r.completed tableName commit ids := by
  refine filter_congr fun id _ => ?_
  simp only [cover]
  split
  · cases r.stored (checkpointKey tableName id) with
    | none => rfl
    | some c => simp only [Option.map_some, Option.any_some, addCoverage_addCoverage]
  · rfl

theorem cover_cover (ids ids' : List String) : (r.cover tableName commit ids).cover tableName commit ids' =
      r.cover tableName commit (ids ++ ids') := by
  have hstored : ((r.cover tableName commit ids).cover tableName commit ids').stored =
      (r.cover tableName commit (ids ++ ids')).stored := by
    funext key
    simp only [cover, map_append, mem_append]
    by_cases h : key ∈ ids.map (checkpointKey tableName)
    · simp only [h, true_or, if_true]
      split
      · simp [Function.comp_def, addCoverage_addCoverage]
      · rfl
    · simp [h]
  have hwaiting : ((r.cover tableName commit ids).cover tableName commit ids').waiting =
      (r.cover tableName commit (ids ++ ids')).waiting := by
    funext key
    rw [cover, completed_cover]
    simp only [cover, completed, filter_append]
    split
    · rw [filter_filter]
      simp [Bool.and_comm]
    · rfl
  exact CoverageRecords.ext rfl rfl hstored hwaiting rfl

/-- The frontier of `"es"` moves to an id that is greater as a text. -/
def advance (tableName maxId : String) : CoverageRecords :=
  match r.frontier (some "es") (r.realName tableName) with
  | some latest =>
    if latest < maxId then r.setFrontier (some "es") (r.realName tableName) maxId else r
  | none => r.setFrontier (some "es") (r.realName tableName) maxId

theorem advance_eq (tableName maxId : String) :
    r.advance tableName maxId = { r with frontier := (r.advance tableName maxId).frontier } := by
  unfold advance
  split
  · split <;> rfl
  · rfl

theorem advance_work (tableName maxId : String) (work : String → String → Option ExtensionWorkItem) :
    { r with work := work }.advance tableName maxId = { r.advance tableName maxId with work := work } := by
  unfold advance
  dsimp only
  split
  · split <;> rfl
  · rfl

/-- The outstanding work after an extension commit: the files it covers are no longer work. -/
structure WorkDone (tableName : String) (commit : ExtensionCommit) (r' : CoverageRecords) : Prop where
  others : ∀ e t, e ≠ commit.extension ∨ t ≠ tableName → r'.work e t = r.work e t
  none : r.work commit.extension tableName = none → r'.work commit.extension tableName = none
  some : ∀ item, r.work commit.extension tableName = some item →
    ∃ item', r'.work commit.extension tableName = some item' ∧
      item.speedboatFiles.remove commit.files.keys = some item'.speedboatFiles ∧
      item.icebergFiles.remove commit.files.keys = some item'.icebergFiles

end CoverageRecords

namespace EphemeralServiceImpl

open CoverageRecords

variable {s s' : EphemeralServiceImpl} {speedboatFiles icebergFiles : FileSetPayload}
  {checkpoint c : TableMetadataCheckpoint} {compactions : List String} {tableName : String} {schema : PowdrrSchema}
  {pre : TableMetadataCheckpoint} {checkpointId : String}

def records (s : EphemeralServiceImpl) : CoverageRecords where
  realName := s.realTableName
  frontier := fun extension tableName =>
    (s.latestCommittedCheckpointId.lookup extension).bind (·.lookup tableName)
  stored := s.checkpoints.lookup
  waiting := fun key => s.checkpointsNeedingExtensionWork.getD key []
  work := fun extension tableName =>
    ((s.extensionWorkItems.lookup extension).bind (·.lookup tableName)).map (·.workItem)

theorem work_new (mode : CompactionMode) (ids : IdInstance) (extension tableName : String) :
    (new mode ids).records.work extension tableName = none := by
  by_cases he : extension = "es"
  · subst he
    rfl
  · have hlookup : (new mode ids).extensionWorkItems.lookup extension = none :=
      AList.lookup_eq_none.mpr fun hmem => he (mem_singleton.mp hmem)
    simp [records, hlookup]

/-! ### The pieces of a commit -/

theorem records_storeCheckpoint (tableName id : String) (c : TableMetadataCheckpoint) :
    (s.storeCheckpoint tableName id c).records = s.records.store tableName id c := by
  refine CoverageRecords.ext rfl rfl (funext fun key => ?_) rfl rfl
  simp only [store, Function.update_apply]
  exact Dict.lookup_insert_eq _ _ _ _

theorem records_setLatestCommittedCheckpointId (extension : Option String) (tableName id : String) :
    (s.setLatestCommittedCheckpointId extension tableName id).records =
      s.records.setFrontier extension tableName id := by
  refine CoverageRecords.ext rfl (funext fun e => funext fun t => ?_) rfl rfl rfl
  exact Dict.bind_lookup_insert_nested _ _ _ _ _ _

theorem work_storeExtensionTracker (extension tableName : String) (tracker : ExtensionWorkItemTracker) :
    (s.storeExtensionTracker extension tableName tracker).records.work = fun e t =>
      if e = extension ∧ t = tableName then some tracker.workItem else s.records.work e t := by
  funext e t
  simp only [records, storeExtensionTracker, Dict.bind_lookup_insert_nested]
  split <;> rfl

theorem records_queue (tableName id : String) (tracker : ExtensionWorkItemTracker) :
    ((s.storeExtensionTracker "es" tableName tracker).awaitExtension tableName "es" id).records =
      s.records.queue tableName id tracker.workItem := by
  refine CoverageRecords.ext rfl rfl rfl (funext fun key => ?_)
    (work_storeExtensionTracker "es" tableName tracker)
  simp only [records, queue, awaitExtension, storeExtensionTracker, Dict.getD, Dict.lookup_insert_eq,
    Function.update_apply]
  split <;> rfl

theorem queued_of_fillExtensionWorkItem
    (h : s.fillExtensionWorkItem tableName "es" checkpointId schema speedboatFiles icebergFiles =
      some s') : s.records.Queued tableName checkpointId speedboatFiles icebergFiles s'.records := by
  unfold fillExtensionWorkItem at h
  split at h
  · rename_i hempty
    cases h
    exact .idle hempty.1 hempty.2
  simp only [bind_eq_some] at h
  obtain ⟨items, hitems, tracker, htracker, heq⟩ := h
  cases heq
  have hdrawn : (s.drawTrackerId items tableName).2.records = s.records := by
    unfold drawTrackerId
    split <;> rfl
  rw [records_queue, hdrawn]
  refine .work ?_
  have hwork : s.records.work "es" tableName = (items.lookup tableName).map (·.workItem) := by
    simp [records, hitems]
  rw [hwork]
  cases hold : items.lookup tableName with
  | none =>
    rw [hold] at htracker
    cases htracker
    exact ⟨rfl, rfl⟩
  | some old =>
    simp only [hold, extensionTracker, bind_eq_some] at htracker
    obtain ⟨speedboat, hspeedboat, iceberg, hiceberg, heq⟩ := htracker
    cases heq
    exact ⟨hspeedboat, hiceberg⟩

theorem CompactionOps.records (h : CompactionOps s s') : s'.records = s.records := by
  induction h with
  | refl => rfl
  | tail _ hop ih =>
    rw [← ih]
    cases hop <;> rfl

/-! ### Filling in known coverage -/

theorem fillFromRecent_spec (s : EphemeralServiceImpl) (tableName extension : String)
    (files : List FileDescriptor) (metadata : ExtensionFileMetadata) (path : String) :
    let known := (s.recentFileExtensionMetadata.lookup (recentFileKey tableName extension path)).isSome
    let filled := s.fillFromRecent tableName extension files metadata
    (path ∈ filled.1 ↔ path ∈ metadata ∨ path ∈ files.map (·.filePath) ∧ known = true) ∧
      (path ∈ filled.2.filePaths ↔ path ∈ files.map (·.filePath) ∧ known = false) ∧ filled.2.Wf := by
  dsimp only
  unfold fillFromRecent
  induction files using List.reverseRecOn with
  | nil => exact ⟨by simp, by simp [FileSetPayload.new], FileSetPayload.wf_new⟩
  | append_singleton files file ih =>
    rw [foldl_concat, map_append, mem_append, map_singleton, mem_singleton]
    obtain ⟨hfilled, hmissing, hwf⟩ := ih
    generalize files.foldl _ (metadata, FileSetPayload.new) = acc at hfilled hmissing hwf ⊢
    obtain ⟨filled, missing⟩ := acc
    dsimp only at hfilled hmissing hwf ⊢
    cases hknown : s.recentFileExtensionMetadata.lookup
        (recentFileKey tableName extension file.filePath) with
    | some extensionFiles =>
      rw [AList.mem_insert, hfilled, hmissing]
      refine ⟨?_, ?_, hwf⟩ <;> rcases eq_or_ne path file.filePath with rfl | hpath
      · simp [hknown]
      · simp [hpath]
      · simp [hknown]
      · simp [hpath]
    | none =>
      rw [hfilled, FileSetPayload.mem_add, hmissing]
      refine ⟨?_, ?_, hwf.add file⟩ <;> rcases eq_or_ne path file.filePath with rfl | hpath
      · simp [hknown]
      · simp [hpath]
      · simp [hknown]
      · simp [hpath]

/-- What is covered in a checkpoint that was filled in, and what was left as work. -/
structure Filled (s : EphemeralServiceImpl) (pre c : TableMetadataCheckpoint)
    (speedboatFiles icebergFiles : FileSetPayload) : Prop where
  eq : ∃ extensionMetadata, c = { pre with extensionMetadata }
  known : ∀ path ∈ c.extensionMap "es", path ∈ pre.extensionMap "es" ∨
    (s.recentFileExtensionMetadata.lookup (recentFileKey pre.tableName "es" path)).isSome
  speedboatWf : speedboatFiles.Wf
  icebergWf : icebergFiles.Wf
  missing : pre.icebergFiles.Wf → pre.speedboatFiles.Wf →
    ∀ path ∈ c.icebergPaths ++ c.speedboatPaths, path ∉ c.extensionMap "es" →
      path ∈ speedboatFiles.filePaths ++ icebergFiles.filePaths

theorem filled_of_tryFill (h : s.tryFillCheckpointExtensionMetadata "es" pre = some (c, speedboatFiles, icebergFiles)) :
    Filled s pre c speedboatFiles icebergFiles := by
  have heq := tryFillCheckpointExtensionMetadata_eq h
  simp only [tryFillCheckpointExtensionMetadata, bind_eq_some] at h
  obtain ⟨iceberg, hiceberg, speedboat, hspeedboat, hc⟩ := h
  have hretain : ∀ path ∈ pre.retainCurrentExtensionMetadata.extensionMap "es", path ∈ pre.extensionMap "es" :=
    fun path => mem_extensionMap_of_mapValues rfl
  generalize pre.retainCurrentExtensionMetadata.extensionMap "es" = retained at hc hretain
  have hfirst := s.fillFromRecent_spec pre.tableName "es" iceberg retained
  generalize hone : s.fillFromRecent pre.tableName "es" iceberg retained = one at hfirst
  have hsecond := s.fillFromRecent_spec pre.tableName "es" speedboat one.1
  generalize htwo : s.fillFromRecent pre.tableName "es" speedboat one.1 = two at hsecond
  have hpre : (pre.retainCurrentExtensionMetadata).tableName = pre.tableName := rfl
  rw [hpre, hone, htwo] at hc
  obtain ⟨rfl, rfl, rfl⟩ : _ ∧ _ ∧ _ := by simpa [Prod.ext_iff] using hc
  have hmap : ∀ path, path ∈ Dict.getD (AList.insert "es" two.1
      pre.retainCurrentExtensionMetadata.extensionMetadata) "es" ∅ ↔ path ∈ two.1 := by
    intro path
    rw [Dict.getD, AList.lookup_insert, Option.getD_some]
  have hnotKnown : ∀ path, path ∉ two.1 → (path ∈ iceberg.map (·.filePath) → path ∈ one.2.filePaths) ∧
        (path ∈ speedboat.map (·.filePath) → path ∈ two.2.filePaths) := by
    intro path hnot
    obtain ⟨hone, hmem⟩ := not_or.mp (fun h => hnot ((hsecond path).1.mpr h))
    obtain ⟨-, hmem'⟩ := not_or.mp (fun h => hone ((hfirst path).1.mpr h))
    refine ⟨fun hpath => (hfirst path).2.1.mpr ⟨hpath, ?_⟩, fun hpath => (hsecond path).2.1.mpr ⟨hpath, ?_⟩⟩
    · exact Bool.eq_false_iff.mpr fun hknown => hmem' ⟨hpath, hknown⟩
    · exact Bool.eq_false_iff.mpr fun hknown => hmem ⟨hpath, hknown⟩
  refine ⟨heq, fun path hpath => ?_, (hsecond "").2.2, (hfirst "").2.2, ?_⟩
  · rcases (hsecond path).1.mp ((hmap path).mp hpath) with hpath | hpath
    · rcases (hfirst path).1.mp hpath with hpath | hpath
      · exact Or.inl (hretain path hpath)
      · exact Or.inr hpath.2
    · exact Or.inr hpath.2
  intro hicebergWf hspeedboatWf path hpath hnot
  obtain ⟨hleft, hright⟩ := hnotKnown path fun hmem => hnot ((hmap path).mpr hmem)
  obtain ⟨icebergTuples, hicebergTuples, hicebergPaths⟩ := hicebergWf.asFileTuples
  obtain ⟨speedboatTuples, hspeedboatTuples, hspeedboatPaths⟩ := hspeedboatWf.asFileTuples
  cases hiceberg.symm.trans hicebergTuples
  cases hspeedboat.symm.trans hspeedboatTuples
  rcases mem_append.mp hpath with hpath | hpath
  · exact mem_append_right _ (hleft (hicebergPaths ▸ hpath))
  · exact mem_append_left _ (hright (hspeedboatPaths ▸ hpath))

theorem Filled.of_nextId (h : Filled s.nextId.2 pre c speedboatFiles icebergFiles) :
    Filled s pre c speedboatFiles icebergFiles :=
  ⟨h.eq, h.known, h.speedboatWf, h.icebergWf, h.missing⟩

/-! ### Speedboat and iceberg commits -/

/-- The next checkpoint of a table: the one it builds on, the new one before and after known coverage
was filled in, and the files left as work. -/
structure NextCheckpoint (s : EphemeralServiceImpl) (tableName : String)
    (latest pre c : TableMetadataCheckpoint) (speedboatFiles icebergFiles : FileSetPayload) : Prop where
  filled : Filled s pre c speedboatFiles icebergFiles
  base : ∃ schema, s.latestCheckpoint tableName schema = some latest
  name : pre.tableName = tableName
  id : pre.checkpointId = s.nextId.1
  covered : ∀ path ∈ pre.extensionMap "es", path ∈ latest.extensionMap "es"

/-- What one table info of a speedboat commit does to the records. A delete leaves no work. -/
inductive InfoStep (s : EphemeralServiceImpl) (info : SpeedboatCommitTableInfo) (s' : EphemeralServiceImpl) : Prop
  | commit {latest pre c speedboatFiles icebergFiles} : info.commitType = "commit" ∨ info.commitType = "compact" →
      NextCheckpoint s info.tableName latest pre c speedboatFiles icebergFiles →
      committedSpeedboatFiles latest info = some pre.speedboatFiles →
      pre.icebergFiles = latest.icebergFiles →
      (s.records.commit info.tableName s.nextId.1 c).Queued info.tableName s.nextId.1 speedboatFiles
        icebergFiles s'.records → InfoStep s info s'
  | delete {latest pre c speedboatFiles icebergFiles} : info.commitType = "delete" →
      NextCheckpoint s info.tableName latest pre c speedboatFiles icebergFiles →
      pre.speedboatFiles = latest.speedboatFiles → pre.icebergFiles = latest.icebergFiles →
      s'.records = s.records.commit info.tableName s.nextId.1 c → InfoStep s info s'

theorem infoStep_of_speedboatCommitTableInfo {info : SpeedboatCommitTableInfo}
    (h : s.speedboatCommitTableInfo info = some s') : InfoStep s info s' := by
  unfold speedboatCommitTableInfo at h
  split at h
  · rename_i htype
    simp only [speedboatCommitTypeCommit, bind_eq_some] at h
    obtain ⟨latest, hlatest, files, hfiles, schema, -, ⟨c, sf, icf⟩, hfill, s1, hwork, hcompact⟩ := h
    have hfilled := (filled_of_tryFill hfill).of_nextId
    have hnext := NextCheckpoint.mk hfilled ⟨_, hlatest⟩ rfl rfl fun _ h => h
    refine .commit htype hnext hfiles rfl ?_
    have hqueued := queued_of_fillExtensionWorkItem hwork
    rw [records_storeCheckpoint] at hqueued
    have hreal : s1.realTableName = s.realTableName := hqueued.realName
    rw [(compactionOps_maybeCreateCompactionWorkItem hcompact).records, setLatestCommittedCheckpoint, hreal,
      records_setLatestCommittedCheckpointId]
    generalize s1.records = r at hqueued ⊢
    cases hqueued with
    | idle hspeedboat hiceberg => exact .idle hspeedboat hiceberg
    | work hitem => exact .work hitem
  · split at h
    · rename_i htype
      simp only [speedboatCommitTypeDelete, bind_eq_some] at h
      obtain ⟨latest, hlatest, ⟨c, sf, icf⟩, hfill, heq⟩ := h
      cases heq
      have hfilled := (filled_of_tryFill hfill).of_nextId
      have hnext := NextCheckpoint.mk hfilled ⟨_, hlatest⟩ rfl rfl fun _ h => h
      refine .delete htype hnext rfl rfl ?_
      rw [setLatestCommittedCheckpoint, records_setLatestCommittedCheckpointId, records_storeCheckpoint]
      rfl
    · cases h

theorem handleCompactions_coverage (h : s.handleCompactions compactions checkpoint = some c) :
    c.tableName = checkpoint.tableName ∧ c.checkpointId = checkpoint.checkpointId ∧
      ∀ path ∈ c.extensionMap "es", path ∈ checkpoint.extensionMap "es" := by
  refine foldlM_invariant (P := fun c => c.tableName = checkpoint.tableName ∧ c.checkpointId = checkpoint.checkpointId ∧
      ∀ path ∈ c.extensionMap "es", path ∈ checkpoint.extensionMap "es") ?_ ⟨rfl, rfl, fun _ h => h⟩ h
  rintro compaction - mid mid' ⟨htable, hid, hmap⟩ hstep
  simp only [handleCompaction, bind_eq_some] at hstep
  obtain ⟨commit, -, speedboat, -, heq⟩ := hstep
  cases heq
  exact ⟨htable, hid, fun path hpath => hmap path (mem_extensionMap_of_mapValues rfl hpath)⟩

structure IcebergStep (s : EphemeralServiceImpl) (tableName : String) (commit : IcebergCommit)
    (s' : EphemeralServiceImpl) (latest pre c : TableMetadataCheckpoint)
    (speedboatFiles icebergFiles : FileSetPayload) : Prop where
  next : NextCheckpoint s tableName latest pre c speedboatFiles icebergFiles
  files : pre.icebergFiles = commit.metadata.files
  wf : latest.speedboatFiles.Wf → pre.speedboatFiles.Wf
  queued : (s.records.commit tableName s.nextId.1 c).Queued tableName s.nextId.1 speedboatFiles
    icebergFiles s'.records

theorem icebergStep_of_icebergCommit {commit : IcebergCommit} (h : s.icebergCommit tableName commit = some s') :
    ∃ latest pre c speedboatFiles icebergFiles,
      IcebergStep s tableName commit s' latest pre c speedboatFiles icebergFiles := by
  simp only [icebergCommit, bind_eq_some] at h
  obtain ⟨latest, hlatest, schema, -, pre, hpre, ⟨c, sf, icf⟩, hfill, s1, hwork, s2, hfinish, heq⟩ := h
  cases heq
  obtain ⟨htable, hid, hmap⟩ := handleCompactions_coverage hpre
  obtain ⟨hiceberg, -, -, hwf⟩ := handleCompactions_spec hpre
  have hfilled := (filled_of_tryFill hfill).of_nextId
  refine ⟨latest, pre, c, sf, icf, ⟨hfilled, ⟨_, hlatest⟩, htable, hid, hmap⟩, ?_, hwf, ?_⟩
  · unfold TableMetadataCheckpoint.icebergFiles
    rw [hiceberg]
  have hqueued := queued_of_fillExtensionWorkItem hwork
  rw [setLatestCommittedCheckpoint, records_setLatestCommittedCheckpointId, records_storeCheckpoint] at hqueued
  have hrecords : s2.records = s1.records := (compactionOps_finishCompactions hfinish).records
  change CoverageRecords.Queued _ _ _ _ _ s2.records
  rw [hrecords]
  exact hqueued

end EphemeralServiceImpl

end PowdrrEngine
