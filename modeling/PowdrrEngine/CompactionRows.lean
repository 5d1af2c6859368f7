import PowdrrEngine.LibMergeOnRead
import PowdrrEngine.ServiceEffects

/-! Compaction and the rows of a table. A worker joins the rows of the work item's speedboat files with
the keys of its delete files, writes the rows without a match to a parquet file, and sends the keys
without a match along with the iceberg commit as remaining deletes. The service drops the consumed
delete files and does not read the remaining deletes, so a row of another file that only a consumed
delete file held back comes to light again. -/

namespace PowdrrEngine

open EphemeralServiceImpl CheckpointCatalog TableMetadataCheckpoint List

/-! ### Rows -/

/-- A row of a data file. `idSeqNo` is `_id_seq_no`, the key that delete files name. -/
structure Row where
  id : String
  idSeqNo : String
  source : Value
  deriving DecidableEq

/-- The contents of the files; files are written once and do not change. -/
structure FileStore where
  rows : String → List Row
  deletedKeys : String → List String

/-- `FULL OUTER JOIN {deletes_table} dt ON (dt._id_seq_no = t._id_seq_no)`: a row without a match has
no key beside it, a key without a match has no row. -/
def fullOuterJoin (rows : List Row) (keys : List String) : List (Option Row × Option String) :=
  rows.flatMap (fun row =>
    if row.idSeqNo ∈ keys then (keys.filter (· = row.idSeqNo)).map fun key => (some row, some key)
    else [(some row, none)]) ++
  (keys.filter fun key => key ∉ rows.map (·.idSeqNo)).map fun key => (none, some key)

/-- The result rows: `_id is not null and _dt_id_seq_no is null`. -/
def joinedRows (joined : List (Option Row × Option String)) : List Row :=
  joined.filterMap fun
    | (some row, none) => some row
    | _ => none

/-- The remaining deletes: `_id is null and _dt_id_seq_no is not null`. -/
def joinedDeletes (joined : List (Option Row × Option String)) : List String :=
  joined.filterMap fun
    | (none, some key) => some key
    | _ => none

theorem mem_joinedRows {rows : List Row} {keys : List String} {row : Row} :
    row ∈ joinedRows (fullOuterJoin rows keys) ↔ row ∈ rows ∧ row.idSeqNo ∉ keys := by
  simp only [joinedRows, fullOuterJoin, filterMap_append, mem_append, mem_filterMap, mem_flatMap, mem_map]
  constructor
  · rintro (⟨⟨left, right⟩, ⟨row', hrow', hmem⟩, hrow⟩ | ⟨pair, ⟨key, -, rfl⟩, hrow⟩)
    · split at hmem
      · obtain ⟨key, -, hpair⟩ := mem_map.mp hmem
        cases hpair
        cases hrow
      · rename_i hkey
        cases mem_singleton.mp hmem
        cases hrow
        exact ⟨hrow', hkey⟩
    · cases hrow
  · rintro ⟨hrow, hkey⟩
    exact Or.inl ⟨(some row, none), ⟨row, hrow, by simp [hkey]⟩, rfl⟩

namespace FileStore

variable (store : FileStore) {row : Row} (item : CompactionWorkItem)

def compactedRows : List Row :=
  joinedRows (fullOuterJoin (item.speedboatFiles.filePaths.flatMap store.rows)
    (item.deleteFiles.flatMap store.deletedKeys))

def remainingDeletes : List String :=
  joinedDeletes (fullOuterJoin (item.speedboatFiles.filePaths.flatMap store.rows)
    (item.deleteFiles.flatMap store.deletedKeys))

/-- `result_generator` and `do_iceberg_commit`: the iceberg commit of a compaction, given the metadata
that Iceberg reports after the append and the segment the remaining deletes go to. The worker asserts
that there are result rows. -/
def resultGenerator (tableName : String) (item : CompactionWorkItem) (metadata : IcebergMetadata)
    (deleteSegment : SpeedboatSegmentFile) : Option IcebergCommit :=
  if store.compactedRows item = [] then none
  else
    let deletesTableInfo :=
      if store.remainingDeletes item = [] then none
      else some (SpeedboatCommitTableInfo.fromSegments "delete" tableName [deleteSegment] (some .deletes))
    some { metadata, deletesTableInfo, compactions := [item.id] }

variable (c : TableMetadataCheckpoint)

def visibleRows : List Row :=
  ((c.icebergPaths ++ c.speedboatPaths).flatMap store.rows).filter fun row =>
    row.idSeqNo ∉ c.deletePaths.flatMap store.deletedKeys

def keptRows : List Row :=
  (c.icebergPaths ++ c.speedboatPaths.filter (· ∉ item.speedboatFiles.filePaths)).flatMap store.rows

/-- Every kept row that a consumed delete file names is named by a surviving delete file as well. -/
def deletesSurvive : Bool :=
  (store.keptRows item c).all fun row =>
    row.idSeqNo ∉ item.deleteFiles.flatMap store.deletedKeys ||
      row.idSeqNo ∈ (c.deletePaths.filter (· ∉ item.deleteFiles)).flatMap store.deletedKeys

def rowsOf (paths : Set String) : Set Row := {row | ∃ path ∈ paths, row ∈ store.rows path}

def keysOf (paths : Set String) : Set String := {key | ∃ path ∈ paths, key ∈ store.deletedKeys path}

theorem rowsOf_union (p q : Set String) : store.rowsOf (p ∪ q) = store.rowsOf p ∪ store.rowsOf q := by
  ext row
  simp [rowsOf, or_and_right, exists_or]

theorem keysOf_union (p q : Set String) : store.keysOf (p ∪ q) = store.keysOf p ∪ store.keysOf q := by
  ext row
  simp [keysOf, or_and_right, exists_or]

theorem mem_visibleRows {c : TableMetadataCheckpoint} : row ∈ store.visibleRows c ↔ row ∈ MergeOnRead.live Row.idSeqNo
      (store.rowsOf ({p | p ∈ c.icebergPaths} ∪ {p | p ∈ c.speedboatPaths}))
      (store.keysOf {p | p ∈ c.deletePaths}) := by
  simp [visibleRows, MergeOnRead.mem_live, rowsOf, keysOf, or_and_right, exists_or]

end FileStore

/-! ### Calls before and during a compaction -/

namespace ServiceCall

/-- The file lists that a call brings in are in step, as those of `from_segments` are. -/
def sound : ServiceCall → Bool
  | .speedboatCommit commit => commit.typeFiles.all fun info => info.sizes.length = info.files.length
  | .addCheckpoint metadata => metadata.speedboatFiles.Wf
  | _ => true

/-- The calls that may run between the creation of a table's work item and its iceberg commit:
speedboat and delete commits to the table, and whatever neither commits iceberg files, adds a
checkpoint nor renames a table. -/
def races (tableName : String) : ServiceCall → Bool
  | .speedboatCommit commit => commit.typeFiles.all fun info => info.tableName = tableName
  | .icebergCommit _ _ | .addCheckpoint _ | .addAlias _ _ | .removeAlias _ _ => false
  | _ => true

end ServiceCall

namespace CheckpointCatalog

variable {cat cat' : CheckpointCatalog} {tableName : String} {c : TableMetadataCheckpoint}
  {infos : List SpeedboatCommitTableInfo} {icebergPaths : List String} {item : CompactionWorkItem}
  {call : ServiceCall}

/-- The speedboat files of every stored checkpoint are well formed. -/
def WfFiles (cat : CheckpointCatalog) : Prop := ∀ key c, cat.checkpoints.lookup key = some c → c.speedboatFiles.Wf

theorem WfFiles.base (h : cat.WfFiles) {latest : TableMetadataCheckpoint}
    (hbase : cat.Base tableName latest) : latest.speedboatFiles.Wf := by
  rcases hbase with ⟨id, -, hlookup⟩ | ⟨-, -, hspeedboat, -⟩
  · exact h _ _ hlookup
  · rw [speedboatFiles, hspeedboat]
    exact FileSetPayload.wf_new

theorem WfFiles.commits (h : cat.WfFiles) (hcommits : Commits cat cat' tableName c)
    (hc : c.speedboatFiles.Wf) : cat'.WfFiles := by
  intro key c' hc'
  rw [hcommits.keeps.checkpoints] at hc'
  change (cat.checkpoints.insert _ c).lookup key = some c' at hc'
  rw [Dict.lookup_insert_eq] at hc'
  split at hc'
  · cases hc'
    exact hc
  · exact h key c' hc'

/-- One table info of a speedboat commit: the new checkpoint is well formed, has the iceberg files of
the one it builds on, and loses none of its speedboat and delete files. -/
theorem InfoEffect.grows {info : SpeedboatCommitTableInfo} (h : InfoEffect cat info cat') (hwf : cat.WfFiles)
    (hsound : info.sizes.length = info.files.length) :
    ∃ latest c, cat.Base info.tableName latest ∧ Commits cat cat' info.tableName c ∧
      c.speedboatFiles.Wf ∧ c.icebergPaths = latest.icebergPaths ∧
      latest.speedboatPaths ⊆ c.speedboatPaths ∧ latest.deletePaths ⊆ c.deletePaths := by
  obtain ⟨latest, c, hbase, hcommits, hiceberg, hkind⟩ := h
  have hlatest := hwf.base hbase
  have hice : c.icebergPaths = latest.icebergPaths := by
    simp only [icebergPaths, icebergFiles, hiceberg]
  refine ⟨latest, c, hbase, hcommits, ?_⟩
  rcases hkind with ⟨files, hfiles, hspeedboat, hdeletes⟩ | ⟨hspeedboat, hdeletes⟩
  · obtain ⟨hfilesWf, hsub⟩ := committedSpeedboatFiles_spec hlatest hsound hfiles
    have hc : c.speedboatFiles = files := by rw [speedboatFiles, hspeedboat]
    refine ⟨hc ▸ hfilesWf, hice, ?_, ?_⟩
    · change latest.speedboatPaths ⊆ c.speedboatFiles.filePaths
      rwa [hc]
    · simp only [deletePaths, hdeletes, List.Subset.refl]
  have hc : c.speedboatFiles = latest.speedboatFiles := by
    simp only [speedboatFiles, hspeedboat]
  refine ⟨hc ▸ hlatest, hice, ?_, ?_⟩
  · rw [speedboatPaths, speedboatPaths, hc]
    exact List.Subset.refl _
  · intro path hpath
    simp only [deletePaths, hdeletes, Option.map_some, Option.getD_some]
    exact mem_append_left _ hpath

theorem InfosEffect.wfFiles (h : InfosEffect cat infos cat') (hwf : cat.WfFiles)
    (hsound : ∀ info ∈ infos, info.sizes.length = info.files.length) : cat'.WfFiles := by
  induction h with
  | nil cat => exact hwf
  | cons hinfo _ ih =>
    obtain ⟨_, c, -, hcommits, hc, -⟩ := hinfo.grows hwf (hsound _ mem_cons_self)
    exact ih (hwf.commits hcommits hc) fun info hmem => hsound info (mem_cons_of_mem _ hmem)

theorem CatalogEffect.wfFiles (h : CatalogEffect cat call cat') (hwf : cat.WfFiles) (hsound : call.sound = true) :
    cat'.WfFiles := by
  cases h with
  | publish h =>
    intro key c hc
    exact hwf key c (h.checkpoints ▸ hc)
  | addAlias h | removeAlias h =>
    rw [h]
    exact hwf
  | speedboat h => exact h.wfFiles hwf (by simpa [ServiceCall.sound] using hsound)
  | iceberg h =>
    obtain ⟨latest, c, hbase, hcommits, -, -, -, hc⟩ := h
    exact hwf.commits hcommits (hc (hwf.base hbase))
  | extension h =>
    intro key c' hc'
    obtain ⟨c, _, hc, rfl⟩ := h.checkpoints key c' hc'
    exact hwf key c hc
  | add h =>
    intro key c hc
    rcases h.checkpoints with hcp | hcp
    · exact hwf key c (hcp ▸ hc)
    rw [hcp, Dict.lookup_insert_eq] at hc
    split at hc
    · cases hc
      exact of_decide_eq_true hsound
    · exact hwf key c hc

structure Carries (cat : CheckpointCatalog) (tableName : String) (item : CompactionWorkItem)
    (icebergPaths : List String) : Prop where
  wfFiles : cat.WfFiles
  latest : cat.latestId tableName ≠ none
  files : ∀ c, cat.Base tableName c → c.icebergPaths = icebergPaths ∧
    item.speedboatFiles.filePaths ⊆ c.speedboatPaths ∧ item.deleteFiles ⊆ c.deletePaths

theorem Base.unique {c' : TableMetadataCheckpoint} (hlatest : cat.latestId tableName ≠ none)
    (h : cat.Base tableName c) (h' : cat.Base tableName c') :
    c = c' := by
  obtain ⟨id, hid, hc⟩ := h.resolve_right fun h => hlatest h.1
  obtain ⟨id', hid', hc'⟩ := h'.resolve_right fun h => hlatest h.1
  cases hid.symm.trans hid'
  exact Option.some.inj (hc.symm.trans hc')

theorem Commits.base (h : Commits cat cat' tableName c) : cat'.Base tableName c := by
  refine Or.inl ⟨_, h.latestId, ?_⟩
  rw [h.keeps.checkpoints]
  exact AList.lookup_insert _

theorem Commits.latestId_ne_none (h : Commits cat cat' tableName c) : cat'.latestId tableName ≠ none := by
  rw [h.latestId]
  exact Option.some_ne_none _

theorem InfosEffect.carries (h : InfosEffect cat infos cat') (hcarries : cat.Carries tableName item icebergPaths)
    (hsound : ∀ info ∈ infos, info.sizes.length = info.files.length)
    (htable : ∀ info ∈ infos, info.tableName = tableName) :
    cat'.Carries tableName item icebergPaths := by
  induction h with
  | nil cat => exact hcarries
  | cons hinfo _ ih =>
    obtain ⟨latest, c, hbase, hcommits, hc, hice, hspeedboat, hdeletes⟩ :=
      hinfo.grows hcarries.wfFiles (hsound _ mem_cons_self)
    rw [htable _ mem_cons_self] at hbase hcommits
    obtain ⟨hice', hspeedboat', hdeletes'⟩ := hcarries.files latest hbase
    refine ih ⟨hcarries.wfFiles.commits hcommits hc, hcommits.latestId_ne_none, ?_⟩
      (fun info hmem => hsound info (mem_cons_of_mem _ hmem))
      (fun info hmem => htable info (mem_cons_of_mem _ hmem))
    intro c' hc'
    rw [← hcommits.base.unique hcommits.latestId_ne_none hc']
    exact ⟨hice.trans hice', List.Subset.trans hspeedboat' hspeedboat, List.Subset.trans hdeletes' hdeletes⟩

theorem CatalogEffect.carries (h : CatalogEffect cat call cat') (hcarries : cat.Carries tableName item icebergPaths)
    (hsound : call.sound = true)
    (hraces : call.races tableName = true) : cat'.Carries tableName item icebergPaths := by
  have hwf := h.wfFiles hcarries.wfFiles hsound
  cases h with
  | publish h =>
    have hid : cat'.latestId tableName = cat.latestId tableName := by
      rw [latestId, latestId, h.latest, h.aliases]
    refine ⟨hwf, hid ▸ hcarries.latest, fun c hc => hcarries.files c ?_⟩
    unfold Base at hc ⊢
    rwa [hid, h.checkpoints] at hc
  | speedboat h =>
    exact h.carries hcarries (by simpa [ServiceCall.sound] using hsound)
      (by simpa [ServiceCall.races] using hraces)
  | extension h =>
    have hid : cat'.latestId tableName = cat.latestId tableName := by
      rw [latestId, latestId, h.latest, h.aliases]
    refine ⟨hwf, hid ▸ hcarries.latest, fun c' hc' => ?_⟩
    rcases hc' with ⟨id, hlatest, hlookup⟩ | ⟨hnone, -⟩
    · obtain ⟨c, _, hc, rfl⟩ := h.checkpoints _ _ hlookup
      exact hcarries.files c (Or.inl ⟨id, hid ▸ hlatest, hc⟩)
    · exact absurd (hid ▸ hnone) hcarries.latest
  | iceberg _ | add _ | addAlias _ | removeAlias _ => cases hraces

end CheckpointCatalog

/-! ### A compaction against the service -/

/-- What a worker's `compaction_commit` says about its work item. -/
def CompactionWorkItem.compactionCommit (item : CompactionWorkItem) (parquetFileName : String) : CompactionCommit :=
  { removedSpeedboatFiles := item.speedboatFiles.filePaths, removedDeleteFiles := item.deleteFiles
    parquetFileName, compactionId := item.id, checkpointIdToReplace := item.checkpointIdToReplace
    checkpointsToDelete := item.checkpointsToDelete }

/-- One compaction, from the history that leads to its work item to the iceberg commit of its result.
`history` ends where the work item is taken from the latest checkpoint `original`; the calls of
`window` race with the worker; `before` and `after` are the latest checkpoints around the iceberg
commit. Iceberg appends, so the commit lists the table's iceberg files and the new parquet file. -/
structure CompactionRun where
  store : FileStore
  mode : CompactionMode
  ids : IdInstance
  tableName : String
  history : List TimedCall
  created : EphemeralServiceImpl
  original : TableMetadataCheckpoint
  item : CompactionWorkItem
  window : List TimedCall
  service : EphemeralServiceImpl
  before : TableMetadataCheckpoint
  parquetFileName : String
  parquetPath : String
  metadata : IcebergMetadata
  deleteSegment : SpeedboatSegmentFile
  commit : IcebergCommit
  now : Int
  committed : EphemeralServiceImpl
  after : TableMetadataCheckpoint
  history_sound : ∀ c ∈ history, c.call.sound = true
  exec_history : Run.exec step (.new mode ids) history = some created
  latest_created : created.latestCheckpoint tableName none = some original
  item_eq : CompactionWorkItem.fromCheckpoint item.id original item.checkpointsToDelete = some item
  window_sound : ∀ c ∈ window, c.call.sound = true
  window_races : ∀ c ∈ window, c.call.races tableName = true
  exec_window : Run.exec step created window = some service
  latest_before : service.latestCheckpoint tableName none = some before
  recorded : service.compactions.lookup item.id = some (tableName, item.compactionCommit parquetFileName)
  commit_eq : store.resultGenerator tableName item metadata deleteSegment = some commit
  parquet_rows : store.rows parquetPath = store.compactedRows item
  metadata_files : metadata.files.filePaths = before.icebergPaths ++ [parquetPath]
  step_commit : service.step ⟨now, .icebergCommit tableName commit⟩ = some committed
  latest_after : committed.latestCheckpoint tableName none = some after

namespace CompactionRun

variable (r : CompactionRun) {deleted : String}

theorem base_ne_none {s : EphemeralServiceImpl} {tableName : String} {c : TableMetadataCheckpoint}
    (h : s.latestCheckpoint tableName none = some c) : s.catalog.latestId tableName ≠ none := by
  intro hnone
  have hsync : s.getLatestMaterializedCheckpointSync tableName none = none := hnone
  rw [latestCheckpoint, hsync] at h
  cases h

theorem wfFiles_created : r.created.catalog.WfFiles := by
  have hempty : (EphemeralServiceImpl.new r.mode r.ids).catalog.WfFiles := by
    intro _ _ h
    cases h
  refine Run.exec_invariant (P := fun s => s.catalog.WfFiles) ?_ hempty
    (Run.Along.of_forall r.history_sound _) r.exec_history
  intro s c s' hwf hsound hstep
  exact (step_catalogEffect hstep).wfFiles hwf hsound

theorem carries_created : r.created.catalog.Carries r.tableName r.item r.original.icebergPaths := by
  have hbase := latestCheckpoint_base r.latest_created
  refine ⟨r.wfFiles_created, base_ne_none r.latest_created, ?_⟩
  intro c hc
  rw [← hbase.unique (base_ne_none r.latest_created) hc]
  obtain ⟨speedboat, hspeedboat, hitem⟩ := Option.map_eq_some_iff.mp r.item_eq
  rw [← hitem]
  refine ⟨rfl, ?_, List.Subset.refl _⟩
  rw [speedboatPaths, speedboatFiles, hspeedboat]
  exact List.Subset.refl _

theorem carries_service : r.service.catalog.Carries r.tableName r.item r.original.icebergPaths := by
  have hwindow : ∀ c ∈ r.window, c.call.sound = true ∧ c.call.races r.tableName = true :=
    fun c hc => ⟨r.window_sound c hc, r.window_races c hc⟩
  refine Run.exec_invariant (P := fun s => s.catalog.Carries r.tableName r.item r.original.icebergPaths) ?_
    r.carries_created (Run.Along.of_forall hwindow _) r.exec_window
  intro s c s' hcarries hok hstep
  exact (step_catalogEffect hstep).carries hcarries hok.1 hok.2

theorem after_paths : r.after.icebergPaths = r.before.icebergPaths ++ [r.parquetPath] ∧ r.after.speedboatPaths =
      r.before.speedboatPaths.filter (· ∉ r.item.speedboatFiles.filePaths) ∧
    r.after.deletePaths = r.before.deletePaths.filter (· ∉ r.item.deleteFiles) := by
  obtain ⟨latest, c, hbase, hcommits, hice, hspeedboat, hdeletes, -⟩ :=
    icebergCommit_effect ((step_icebergCommit _).symm.trans r.step_commit)
  have hlatest : latest = r.before :=
    hbase.unique (base_ne_none r.latest_before) (latestCheckpoint_base r.latest_before)
  have hc : c = r.after := hcommits.base.unique hcommits.latestId_ne_none (latestCheckpoint_base r.latest_after)
  obtain ⟨hmetadata, hcompactions⟩ : r.commit.metadata = r.metadata ∧ r.commit.compactions = [r.item.id] := by
    have h := r.commit_eq
    unfold FileStore.resultGenerator at h
    split at h
    · cases h
    · rw [← Option.some.inj h]
      exact ⟨rfl, rfl⟩
  have hrecorded : r.service.catalog.compactions.lookup r.item.id =
      some (r.tableName, r.item.compactionCommit r.parquetFileName) := r.recorded
  subst hlatest hc
  refine ⟨?_, ?_, ?_⟩
  · rw [← r.metadata_files, icebergPaths, icebergFiles, hice, hmetadata]
  · rw [hspeedboat, hcompactions]
    simp [consumedSpeedboatFiles, hrecorded, CompactionWorkItem.compactionCommit]
  · rw [hdeletes, hcompactions]
    simp [consumedDeleteFiles, hrecorded, CompactionWorkItem.compactionCommit]

/-! The table before the commit, split into what the compaction consumes and what it leaves alone. -/

def keptPaths : Set String :=
  {path | path ∈ r.before.icebergPaths} ∪
    {path | path ∈ r.before.speedboatPaths.filter (· ∉ r.item.speedboatFiles.filePaths)}

def consumedPaths : Set String := {path | path ∈ r.item.speedboatFiles.filePaths}

def keptDeletePaths : Set String := {path | path ∈ r.before.deletePaths.filter (· ∉ r.item.deleteFiles)}

def consumedDeletePaths : Set String := {path | path ∈ r.item.deleteFiles}

theorem mem_eq_filter_union {paths consumed : List String} (h : consumed ⊆ paths) :
    ({path | path ∈ paths} : Set String) = {path | path ∈ paths.filter (· ∉ consumed)} ∪ {path | path ∈ consumed} := by
  ext path
  simp only [Set.mem_union, Set.mem_ofPred_eq, mem_filter, decide_eq_true_eq]
  by_cases hmem : path ∈ consumed
  · simp [hmem, h hmem]
  · simp [hmem]

theorem before_dataPaths : ({path | path ∈ r.before.icebergPaths} : Set String) ∪
    {path | path ∈ r.before.speedboatPaths} = r.keptPaths ∪ r.consumedPaths := by
  obtain ⟨-, hsub, -⟩ := r.carries_service.files r.before (latestCheckpoint_base r.latest_before)
  rw [mem_eq_filter_union hsub, ← Set.union_assoc]
  rfl

theorem before_deletePaths : ({path | path ∈ r.before.deletePaths} : Set String) =
    r.keptDeletePaths ∪ r.consumedDeletePaths := by
  obtain ⟨-, -, hsub⟩ := r.carries_service.files r.before (latestCheckpoint_base r.latest_before)
  exact mem_eq_filter_union hsub

theorem rowsOf_parquetPath : r.store.rowsOf {r.parquetPath} = MergeOnRead.live Row.idSeqNo
    (r.store.rowsOf r.consumedPaths) (r.store.keysOf r.consumedDeletePaths) := by
  ext row
  simp [FileStore.rowsOf, FileStore.keysOf, r.parquet_rows, FileStore.compactedRows, mem_joinedRows,
    MergeOnRead.mem_live, consumedPaths, consumedDeletePaths]

theorem mem_visibleRows_after (row : Row) : row ∈ r.store.visibleRows r.after ↔ row ∈ MergeOnRead.live Row.idSeqNo
      (r.store.rowsOf r.keptPaths ∪ MergeOnRead.live Row.idSeqNo (r.store.rowsOf r.consumedPaths)
        (r.store.keysOf r.consumedDeletePaths))
      (r.store.keysOf r.keptDeletePaths) := by
  obtain ⟨hice, hspeedboat, hdeletes⟩ := r.after_paths
  have hpaths : ({path | path ∈ r.after.icebergPaths} : Set String) ∪
      {path | path ∈ r.after.speedboatPaths} = r.keptPaths ∪ {r.parquetPath} := by
    ext path
    simp only [hice, hspeedboat, keptPaths, Set.mem_union, Set.mem_ofPred_eq, mem_append,
      mem_singleton, Set.mem_singleton_iff]
    rw [or_right_comm]
  rw [FileStore.mem_visibleRows, hpaths, hdeletes, FileStore.rowsOf_union, rowsOf_parquetPath]
  rfl

theorem deletesSurvive_iff : r.store.deletesSurvive r.item r.before = true ↔
    ∀ row ∈ r.store.rowsOf r.keptPaths, row.idSeqNo ∈ r.store.keysOf r.consumedDeletePaths →
      row.idSeqNo ∈ r.store.keysOf r.keptDeletePaths := by
  have hrows : ∀ row, row ∈ r.store.keptRows r.item r.before ↔ row ∈ r.store.rowsOf r.keptPaths := by
    simp [FileStore.keptRows, keptPaths, FileStore.rowsOf, or_and_right, exists_or]
  simp only [FileStore.deletesSurvive, all_eq_true, hrows, FileStore.keysOf, keptDeletePaths,
    consumedDeletePaths, mem_flatMap, Set.mem_ofPred_eq, Bool.or_eq_true, decide_eq_true_eq,
    ← imp_iff_not_or]

/-- **Compaction and the visible rows.** The visible rows just after the iceberg commit are those just
before it exactly when every kept row that a consumed delete file names is named by a surviving delete
file too. -/
theorem visibleRows_after_iff : (∀ row, row ∈ r.store.visibleRows r.after ↔ row ∈ r.store.visibleRows r.before) ↔
      r.store.deletesSurvive r.item r.before = true := by
  simp only [mem_visibleRows_after]
  simp only [FileStore.mem_visibleRows, before_dataPaths, before_deletePaths, FileStore.rowsOf_union,
    FileStore.keysOf_union]
  rw [← Set.ext_iff, deletesSurvive_iff]
  exact MergeOnRead.live_compacted_eq_iff

/-! ### A compaction of one table

`part-0.parquet` holds the row `a`, the segments hold `b` and `c`. The work item consumes `seg-1` and
the delete file `del-1`; `seg-2` arrives while the worker runs. -/

def rowSchema : PowdrrSchema := ⟨[⟨"_id", .string⟩]⟩

def parquetFiles (paths : List String) : IcebergMetadata :=
  { tableSchema := rowSchema, snapshotId := none
    files := ⟨paths, [rowSchema], paths.map fun _ => 0, paths.map fun _ => 10⟩ }

def commitSegment (commitType path : String) (schema : PowdrrSchema) : ServiceCall :=
  .speedboatCommit ⟨[.fromSegments commitType "logs" [⟨path, path, 10⟩] (some schema)], none⟩

def logsHistory : List TimedCall :=
  [⟨0, .icebergCommit "logs" ⟨parquetFiles ["part-0.parquet"], none, []⟩⟩, ⟨1, commitSegment "delete" "del-1" .deletes⟩,
   ⟨2, commitSegment "commit" "seg-1" rowSchema⟩]

def logsItem : CompactionWorkItem :=
  { id := "5", tableSchema := rowSchema, speedboatFiles := .single "seg-1" 10 rowSchema
    deleteFiles := ["del-1"], checkpointIdToReplace := "4", checkpointsToDelete := [] }

def logsWindow : List TimedCall :=
  [⟨3, .getCompactionWorkItems⟩, ⟨4, .compactionCommit "logs" (logsItem.compactionCommit "part-1.parquet")⟩,
   ⟨5, commitSegment "commit" "seg-2" rowSchema⟩]

/-- The files, where the delete file names `deleted`. -/
def logsStore (deleted : String) : FileStore where
  rows path :=
    if path = "part-0.parquet" then [⟨"a", "a_1", .null⟩]
    else if path = "seg-1" ∨ path = "part-1.parquet" then [⟨"b", "b_2", .null⟩]
    else if path = "seg-2" then [⟨"c", "c_3", .null⟩]
    else []
  deletedKeys path := if path = "del-1" then [deleted] else []

def logsCommit : IcebergCommit :=
  { metadata := parquetFiles ["part-0.parquet", "part-1.parquet"]
    deletesTableInfo := some (.fromSegments "delete" "logs" [⟨"del-2", "del-2", 10⟩] (some .deletes))
    compactions := ["5"] }

theorem compactedRows_logsStore (h : deleted ≠ "b_2") :
    (logsStore deleted).compactedRows logsItem = [⟨"b", "b_2", .null⟩] := by
  simp [FileStore.compactedRows, joinedRows, fullOuterJoin, logsItem, logsStore, FileSetPayload.single, h, h.symm]

theorem remainingDeletes_logsStore (h : deleted ≠ "b_2") :
    (logsStore deleted).remainingDeletes logsItem = [deleted] := by
  simp [FileStore.remainingDeletes, joinedDeletes, fullOuterJoin, logsItem, logsStore, FileSetPayload.single, h, h.symm]

/-- The states of the compaction whose checkpoints around the commit satisfy `p`. -/
def logsStates (p : TableMetadataCheckpoint → TableMetadataCheckpoint → Bool) :
    Option (EphemeralServiceImpl × TableMetadataCheckpoint × EphemeralServiceImpl ×
      TableMetadataCheckpoint × EphemeralServiceImpl × TableMetadataCheckpoint) := do
  let created ← Run.exec step (.new (.async (some 1)) .counting) logsHistory
  let original ← created.latestCheckpoint "logs" none
  let service ← Run.exec step created logsWindow
  let before ← service.latestCheckpoint "logs" none
  let committed ← service.step ⟨6, .icebergCommit "logs" logsCommit⟩
  let after ← committed.latestCheckpoint "logs" none
  if CompactionWorkItem.fromCheckpoint "5" original [] = some logsItem ∧
      service.compactions.lookup "5" = some ("logs", logsItem.compactionCommit "part-1.parquet") ∧
      logsCommit.metadata.files.filePaths = before.icebergPaths ++ ["part-1.parquet"] ∧
      p before after = true then
    some (created, original, service, before, committed, after)
  else none

theorem exists_logsRun (deleted : String) (hdeleted : deleted ≠ "b_2")
    {p : TableMetadataCheckpoint → TableMetadataCheckpoint → Bool}
    (h : (logsStates p).isSome = true) :
    ∃ r : CompactionRun, r.store = logsStore deleted ∧ r.item = logsItem ∧ p r.before r.after = true := by
  obtain ⟨states, hstates⟩ := Option.isSome_iff_exists.mp h
  simp only [logsStates, Run.bind_eq_some, Option.ite_none_right_eq_some] at hstates
  obtain ⟨created, hcreated, original, horiginal, service, hservice, before, hbefore, committed,
    hcommitted, after, hafter, ⟨hitem, hrecorded, hmetadata, hp⟩, -⟩ := hstates
  have hcommit : (logsStore deleted).resultGenerator "logs" logsItem logsCommit.metadata
      ⟨"del-2", "del-2", 10⟩ = some logsCommit := by
    rw [FileStore.resultGenerator, compactedRows_logsStore hdeleted, remainingDeletes_logsStore hdeleted]
    rfl
  exact ⟨{
    store := logsStore deleted, mode := .async (some 1), ids := .counting, tableName := "logs"
    history := logsHistory, created, original, item := logsItem, window := logsWindow, service, before
    parquetFileName := "part-1.parquet", parquetPath := "part-1.parquet"
    metadata := logsCommit.metadata, deleteSegment := ⟨"del-2", "del-2", 10⟩, commit := logsCommit
    now := 6, committed, after
    history_sound := by decide, exec_history := hcreated, latest_created := horiginal
    item_eq := hitem, window_sound := by decide, window_races := by decide, exec_window := hservice
    latest_before := hbefore, recorded := hrecorded, commit_eq := hcommit
    parquet_rows := (compactedRows_logsStore hdeleted).symm, metadata_files := hmetadata
    step_commit := hcommitted, latest_after := hafter }, rfl, rfl, hp⟩

/-- Where the delete file names a row that is in no file, the rows stay. -/
theorem visibleRows_after_iff_logsRun : ∃ r : CompactionRun, r.store.deletesSurvive r.item r.before = true ∧
      ∀ row, row ∈ r.store.visibleRows r.after ↔ row ∈ r.store.visibleRows r.before := by
  obtain ⟨r, hstore, hitem, hp⟩ := exists_logsRun "z_9" (by decide)
    (p := fun before _ => (logsStore "z_9").deletesSurvive logsItem before) (by decide +kernel)
  have hsurvive : r.store.deletesSurvive r.item r.before = true := by
    rw [hstore, hitem]
    exact hp
  exact ⟨r, hsurvive, r.visibleRows_after_iff.mpr hsurvive⟩

/-- Where the delete file names the row of `part-0.parquet`, that row is visible again after the
compaction. -/
theorem not_visibleRows_after_iff_before : ∃ r : CompactionRun,
    ¬ ∀ row, row ∈ r.store.visibleRows r.after ↔ row ∈ r.store.visibleRows r.before := by
  let row : Row := ⟨"a", "a_1", .null⟩
  obtain ⟨r, hstore, -, hp⟩ := exists_logsRun "a_1" (by decide)
    (p := fun before after => row ∈ (logsStore "a_1").visibleRows after ∧
      row ∉ (logsStore "a_1").visibleRows before) (by decide +kernel)
  refine ⟨r, fun h => ?_⟩
  obtain ⟨hafter, hbefore⟩ := of_decide_eq_true hp
  rw [← hstore] at hafter hbefore
  exact hbefore ((h row).mp hafter)

end CompactionRun

end PowdrrEngine
