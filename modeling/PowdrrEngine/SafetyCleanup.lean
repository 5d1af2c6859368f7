import PowdrrEngine.ServiceEffects

/-! Cleanup and publication. A cleanup work item tells a worker to delete the files that a compaction
has consumed. Before one is handed out the service looks at the active checkpoints of the table only,
so a checkpoint that refers to the files and is still to become active goes unnoticed: a frontier, or
a checkpoint that waits for an extension. The run below shows it happening; where every item that is
handed out is checked against those checkpoints too, and no later commit names a deleted file again,
no active checkpoint ever refers to a deleted file. -/

namespace PowdrrEngine

open EphemeralServiceImpl CheckpointCatalog TableMetadataCheckpoint List Option Dict Text Bool

/-! ### Checkpoints that are or may become active -/

namespace CheckpointCatalog

variable {cat cat' : CheckpointCatalog} {files : List String} {c latest : TableMetadataCheckpoint}
  {tableName id file : String} {info : SpeedboatCommitTableInfo}

section

variable (cat)

/-- A checkpoint id that is active, a frontier, or waiting to become one. -/
def IsLive (id : String) : Prop := cat.IsActive id ∨ cat.IsLatest id ∨ cat.Awaits id

def Clear (files : List String) : Prop :=
  ∀ id, cat.IsLive id → ∀ tableName c, cat.checkpoints.lookup (checkpointKey tableName id) = some c →
    ∀ file ∈ c.referencedPaths, file ∉ files

/-- No checkpoint is stored under an id that is still to be drawn. -/
def Fresh : Prop :=
  ∀ tableName i, cat.drawn ≤ i → cat.checkpoints.lookup (checkpointKey tableName (cat.ids.text i)) = none

/-- The ids of `IsLive`, as a list; a published key of an active selector starts with `"active|"`. -/
def liveIds : List String :=
  (cat.publishedCheckpointId.entries.filter fun e => "active|".toList.isPrefixOf e.1.toList).map (·.2) ++
    (cat.latestCommittedCheckpointId.getD none ∅).values ++
    (cat.latestCommittedCheckpointId.getD (some "es") ∅).values ++
    cat.checkpointsNeedingExtensionWork.values.flatten

/-- The stored checkpoints whose key ends in the id. -/
def checkpointsOfId (id : String) : List TableMetadataCheckpoint :=
  (cat.checkpoints.entries.filter fun e => ("_" ++ id).toList.isSuffixOf e.1.toList).map (·.2)

/-- The stored checkpoints that are or may become active. -/
def liveCheckpoints : List TableMetadataCheckpoint := cat.liveIds.flatMap cat.checkpointsOfId

end

theorem mem_liveIds (h : cat.IsLive id) : id ∈ cat.liveIds := by
  unfold liveIds
  simp only [mem_append]
  rcases h with ⟨tableName, extension, hlookup⟩ | ⟨extension, checkpoints, tableName, he, hlookup, hid⟩ |
    ⟨key, waiting, hlookup, hid⟩
  · refine Or.inl (Or.inl (Or.inl ?_))
    refine mem_map.mpr ⟨⟨_, id⟩, mem_filter.mpr ⟨lookup_eq_some_iff.mp hlookup, ?_⟩, rfl⟩
    simp [selectorStorageKey, roleKey, String.toList_append, append_assoc]
  · have hmem : id ∈ (cat.latestCommittedCheckpointId.getD extension ∅).values := by
      rw [Dict.getD, hlookup, getD_some]
      exact mem_values.mpr ⟨tableName, hid⟩
    rcases mem_pair.mp he with rfl | rfl
    · exact Or.inl (Or.inl (Or.inr hmem))
    · exact Or.inl (Or.inr hmem)
  · exact Or.inr (mem_flatten.mpr ⟨waiting, mem_values.mpr ⟨key, hlookup⟩, hid⟩)

theorem mem_checkpointsOfId (h : cat.checkpoints.lookup (checkpointKey tableName id) = some c) :
    c ∈ cat.checkpointsOfId id := by
  refine mem_map.mpr ⟨⟨_, c⟩, mem_filter.mpr ⟨lookup_eq_some_iff.mp h, ?_⟩, rfl⟩
  simp only [checkpointKey, String.toList_append, isSuffixOf_iff_suffix, append_assoc]
  exact suffix_append _ _

/-! ### What each kind of call does to clear and fresh catalogs -/

theorem checkpointKey_text_inj {ids : IdInstance} {tableName' : String} {i j : Nat}
    (h : checkpointKey tableName (ids.text i) = checkpointKey tableName' (ids.text j)) : i = j := by
  have hglue := glue_inj_of_notMem_right (c := '_') (underscore_notMem_toString_nat _)
    (underscore_notMem_toString_nat _) h
  exact ids.text_injective hglue.2

theorem Base.notMem (hbase : cat.Base tableName latest) (hclear : cat.Clear files) :
    ∀ file ∈ latest.referencedPaths, file ∉ files := by
  rcases hbase with ⟨id, hid, hlookup⟩ | ⟨-, hiceberg, hspeedboat, hdeletes⟩
  · obtain ⟨checkpoints, hnone, htable⟩ := bind_eq_some_iff.mp hid
    exact hclear id (Or.inr (Or.inl ⟨none, checkpoints, _, mem_cons_self, hnone, htable⟩)) tableName latest hlookup
  intro file hfile
  simp [referencedPaths, icebergPaths, speedboatPaths, icebergFiles, speedboatFiles, deletePaths, hiceberg, hspeedboat,
    hdeletes, FileSetPayload.new] at hfile

theorem Commits.isLive (h : Commits cat cat' tableName c)
    (hid : cat'.IsLive id) : cat.IsLive id ∨ id = cat.nextCheckpointId := by
  rcases hid with hid | hid | hid
  · left
    left
    unfold IsActive at hid ⊢
    rwa [h.keeps.published] at hid
  · exact (isLatest_setLatest (h.keeps.isLatest.mp hid)).imp_left fun hid => Or.inr (Or.inl hid)
  · exact (h.awaits id hid).imp_left fun hid => Or.inr (Or.inr hid)

theorem Commits.clear (h : Commits cat cat' tableName c) (hfresh : cat.Fresh) (hclear : cat.Clear files)
    (hc : ∀ file ∈ c.referencedPaths, file ∉ files) :
    cat'.Clear files := by
  intro id hlive tableName' c' hc'
  rw [h.keeps.checkpoints] at hc'
  change (cat.checkpoints.insert _ c).lookup _ = some c' at hc'
  rw [lookup_insert_eq] at hc'
  split at hc'
  · cases hc'
    exact hc
  · rcases h.isLive hlive with hlive | rfl
    · exact hclear id hlive tableName' c' hc'
    · rw [nextCheckpointId, hfresh tableName' cat.drawn le_rfl] at hc'
      cases hc'

theorem Commits.fresh (h : Commits cat cat' tableName c) (hfresh : cat.Fresh) : cat'.Fresh := by
  intro tableName' i hi
  have hlt : cat.drawn < i := lt_of_lt_of_le (Nat.lt_succ_self _) (h.keeps.drawn.trans hi)
  have hids : cat'.ids = cat.ids := h.keeps.ids
  rw [h.keeps.checkpoints, hids]
  change (cat.checkpoints.insert _ c).lookup _ = none
  rw [lookup_insert_eq, if_neg, hfresh tableName' i hlt.le]
  intro hkey
  exact absurd (checkpointKey_text_inj hkey) hlt.ne'

def infoFiles (info : SpeedboatCommitTableInfo) : List String := info.files ++ info.segments.map (·.filePath)

theorem mem_committedSpeedboatFiles {files : FileSetPayload} (h : committedSpeedboatFiles latest info = some files)
    (hfile : file ∈ files.filePaths) : file ∈ latest.speedboatPaths ∨ file ∈ infoFiles info := by
  unfold committedSpeedboatFiles at h
  unfold speedboatPaths speedboatFiles
  split at h
  · obtain ⟨schema, -, rfl⟩ := map_eq_some_iff.mp h
    exact Or.inr (mem_append_left _ hfile)
  rename_i existing hexisting
  obtain ⟨payload, hpayload, hmerge⟩ := bind_eq_some_iff.mp h
  rw [hexisting]
  have hmerged : file ∈ existing.files.filePaths ∨ file ∈ payload.filePaths := by
    unfold FileSetPayload.merge at hmerge
    split at hmerge
    · exact FileSetPayload.mem_of_mem_mergeInplace hmerge hfile
    · exact (FileSetPayload.mem_of_mem_mergeInplace hmerge hfile).symm
  refine hmerged.imp_right fun hmem => ?_
  obtain ⟨schema, -, rfl⟩ := map_eq_some_iff.mp hpayload
  obtain ⟨⟨path, size⟩, hpair, rfl⟩ := mem_map.mp hmem
  unfold SpeedboatCommitTableInfo.segmentFiles at hpair
  split at hpair
  · exact mem_append_left _ (of_mem_zip hpair).1
  · obtain ⟨segment, hsegment, heq⟩ := mem_map.mp hpair
    cases heq
    exact mem_append_right _ (mem_map.mpr ⟨segment, hsegment, rfl⟩)

theorem mem_referencedPaths : file ∈ c.referencedPaths ↔
      file ∈ c.icebergPaths ∨ file ∈ c.speedboatPaths ∨ file ∈ c.deletePaths := by
  simp [referencedPaths]

section

variable (hfresh : cat.Fresh) (hclear : cat.Clear files)

include hfresh hclear

theorem InfoEffect.clear (h : InfoEffect cat info cat')
    (hinfo : ∀ file ∈ infoFiles info, file ∉ files) : cat'.Fresh ∧ cat'.Clear files := by
  obtain ⟨latest, c, hbase, hcommits, hiceberg, hkind⟩ := h
  refine ⟨hcommits.fresh hfresh, hcommits.clear hfresh hclear ?_⟩
  have hold := hbase.notMem hclear
  have hice : c.icebergPaths = latest.icebergPaths := by
    simp [icebergPaths, icebergFiles, hiceberg]
  intro file hfile
  rcases mem_referencedPaths.mp hfile with hf | hf | hf
  · exact hold file (mem_referencedPaths.mpr (Or.inl (hice ▸ hf)))
  · rcases hkind with ⟨committed, hcommitted, hspeed, -⟩ | ⟨hspeed, -⟩
    · have hf' : file ∈ committed.filePaths := by
        simpa [speedboatPaths, speedboatFiles, hspeed]
          using hf
      rcases mem_committedSpeedboatFiles hcommitted hf' with hf | hf
      · exact hold file (mem_referencedPaths.mpr (Or.inr (Or.inl hf)))
      · exact hinfo file hf
    · refine hold file (mem_referencedPaths.mpr (Or.inr (Or.inl ?_)))
      simpa [speedboatPaths, speedboatFiles, hspeed]
        using hf
  · rcases hkind with ⟨committed, -, -, hdelete⟩ | ⟨-, hdelete⟩
    · refine hold file (mem_referencedPaths.mpr (Or.inr (Or.inr ?_)))
      simpa [deletePaths, hdelete] using hf
    have hf' : file ∈ latest.deletePaths ∨ file ∈ info.files := by
      simpa [deletePaths, hdelete] using hf
    rcases hf' with hf | hf
    · exact hold file (mem_referencedPaths.mpr (Or.inr (Or.inr hf)))
    · exact hinfo file (mem_append_left _ hf)

theorem InfosEffect.clear {infos : List SpeedboatCommitTableInfo} (h : InfosEffect cat infos cat')
    (hinfos : ∀ info ∈ infos, ∀ file ∈ infoFiles info, file ∉ files) :
    cat'.Fresh ∧ cat'.Clear files := by
  induction h with
  | nil cat => exact ⟨hfresh, hclear⟩
  | cons hinfo _ ih =>
    obtain ⟨hfresh', hclear'⟩ := hinfo.clear hfresh hclear (hinfos _ mem_cons_self)
    exact ih hfresh' hclear' fun info hmem => hinfos info (mem_cons_of_mem _ hmem)

theorem IcebergEffect.clear {commit : IcebergCommit} (h : IcebergEffect cat tableName commit cat')
    (hcommit : ∀ file ∈ commit.metadata.files.filePaths, file ∉ files) :
    cat'.Fresh ∧ cat'.Clear files := by
  obtain ⟨latest, c, hbase, hcommits, hiceberg, hspeed, hdelete, -⟩ := h
  refine ⟨hcommits.fresh hfresh, hcommits.clear hfresh hclear ?_⟩
  have hold := hbase.notMem hclear
  intro file hfile
  rcases mem_referencedPaths.mp hfile with hf | hf | hf
  · refine hcommit file ?_
    simpa [icebergPaths, icebergFiles, hiceberg] using hf
  · rw [hspeed] at hf
    exact hold file (mem_referencedPaths.mpr (Or.inr (Or.inl (mem_of_mem_filter hf))))
  · rw [hdelete] at hf
    exact hold file (mem_referencedPaths.mpr (Or.inr (Or.inr (mem_of_mem_filter hf))))

theorem ExtensionEffect.clear (h : ExtensionEffect cat cat') : cat'.Fresh ∧ cat'.Clear files := by
  constructor
  · intro tableName i hi
    rw [h.ids]
    cases hlookup : cat'.checkpoints.lookup (checkpointKey tableName (cat.ids.text i)) with
    | none => rfl
    | some c' =>
      obtain ⟨c, _, hc, -⟩ := h.checkpoints _ _ hlookup
      rw [hfresh tableName i (h.drawn ▸ hi)] at hc
      cases hc
  intro id hlive tableName c' hc'
  obtain ⟨c, em, hc, rfl⟩ := h.checkpoints _ _ hc'
  have hlive' : cat.IsLive id := by
    rcases hlive with hid | hid | hid
    · left
      unfold IsActive at hid ⊢
      rwa [h.published] at hid
    · exact (h.isLatest id hid).elim (fun hid => Or.inr (Or.inl hid)) fun hid => Or.inr (Or.inr hid)
    · exact Or.inr (Or.inr (h.awaits id hid))
  exact hclear id hlive' tableName c hc

theorem PublishEffect.clear (h : PublishEffect cat cat') : cat'.Fresh ∧ cat'.Clear files := by
  constructor
  · intro tableName i hi
    rw [h.checkpoints, h.ids]
    exact hfresh tableName i (h.drawn ▸ hi)
  intro id hlive tableName c hc
  have hlive' : cat.IsLive id := by
    rcases hlive with hid | hid | hid
    · exact (h.isActive id hid).imp_right Or.inl
    · right
      left
      unfold IsLatest at hid ⊢
      rwa [h.latest] at hid
    · exact Or.inr (Or.inr ((awaits_congr h.waiting).mp hid))
  rw [h.checkpoints] at hc
  exact hclear id hlive' tableName c hc

end

/-- The id of an added checkpoint is one no commit can draw any more: an id drawn already, or a text
that is no numeral. -/
def AddedIdOk (cat : CheckpointCatalog) (id : String) : Bool :=
  (List.range cat.drawn).any (fun i => cat.ids.text i = id) || ('_' ∉ id.toList && id.toList.any fun ch => !ch.isDigit)

theorem text_isDigit (ids : IdInstance) (i : Nat) : ∀ ch ∈ (ids.text i).toList, ch.isDigit = true := by
  intro ch hch
  change ch ∈ (Nat.repr _).toList at hch
  rw [Nat.toList_repr] at hch
  exact Nat.isDigit_of_mem_toDigits (by decide) (by decide) hch

theorem AddedIdOk.ne_text {tableName' : String} {i : Nat} (h : cat.AddedIdOk id = true) (hi : cat.drawn ≤ i) :
    checkpointKey tableName' (cat.ids.text i) ≠ checkpointKey tableName id := by
  intro hkey
  rcases or_eq_true_iff.mp h with hdrawn | htext
  · obtain ⟨j, hj, hid⟩ := any_eq_true.mp hdrawn
    have hid' : cat.ids.text j = id := of_decide_eq_true hid
    rw [← hid'] at hkey
    have := checkpointKey_text_inj hkey
    have := mem_range.mp hj
    omega
  obtain ⟨hunder, hdigit⟩ := and_eq_true_iff.mp htext
  have hglue := glue_inj_of_notMem_right (c := '_') (underscore_notMem_toString_nat _) (of_decide_eq_true hunder) hkey
  obtain ⟨ch, hch, hnot⟩ := any_eq_true.mp hdigit
  have htext : cat.ids.text i = id := hglue.2
  have hyes := text_isDigit cat.ids i ch (htext.symm ▸ hch)
  simp [hyes] at hnot

theorem AddEffect.clear {metadata : TableMetadataCheckpoint} (h : AddEffect cat metadata cat') (hfresh : cat.Fresh)
    (hclear : cat.Clear files) (hid : cat.AddedIdOk metadata.checkpointId = true)
    (hmetadata : ∀ file ∈ metadata.referencedPaths, file ∉ files)
    (hstored : ∀ c ∈ cat.checkpointsOfId metadata.checkpointId, ∀ file ∈ c.referencedPaths, file ∉ files) :
    cat'.Fresh ∧ cat'.Clear files := by
  constructor
  · intro tableName i hi
    have hi' := h.drawn.trans hi
    rw [h.ids]
    rcases h.checkpoints with hcp | hcp
    · rw [hcp]
      exact hfresh tableName i hi'
    · rw [hcp, lookup_insert_eq, if_neg (AddedIdOk.ne_text hid hi')]
      exact hfresh tableName i hi'
  intro id hlive tableName c hc
  have hcases : cat.IsLive id ∨ id = metadata.checkpointId := by
    rcases hlive with hlive | hlive | hlive
    · left
      left
      unfold IsActive at hlive ⊢
      rwa [h.published] at hlive
    · exact (h.isLatest id hlive).imp_left fun hl => Or.inr (Or.inl hl)
    · exact (h.awaits id hlive).imp_left fun hl => Or.inr (Or.inr hl)
  have hold : cat.checkpoints.lookup (checkpointKey tableName id) = some c →
      ∀ file ∈ c.referencedPaths, file ∉ files := by
    intro hlookup
    rcases hcases with hl | rfl
    · exact hclear id hl tableName c hlookup
    · exact hstored c (mem_checkpointsOfId hlookup)
  rcases h.checkpoints with hcp | hcp
  · exact hold (hcp ▸ hc)
  rw [hcp, lookup_insert_eq] at hc
  split at hc
  · cases hc
    exact hmetadata
  · exact hold hc

end CheckpointCatalog

/-! ### Runs -/

/-- The service together with every file it has handed out for deletion so far. -/
structure CleanupMonitor where
  service : EphemeralServiceImpl
  handed : List String

namespace CleanupMonitor

variable {s : EphemeralServiceImpl} {m : CleanupMonitor} {c : TimedCall}

def new (mode : CompactionMode) (ids : IdInstance) : CleanupMonitor := ⟨.new mode ids, []⟩

def handedBy (s : EphemeralServiceImpl) (c : TimedCall) : List String :=
  match c.call with
  | .getCleanupWorkItems => (s.getCleanupWorkItems c.now).1.flatMap (·.filesToDelete)
  | _ => []

/-- A speedboat or delete file of an active checkpoint of the table, without an extension or with `"es"`:
`cleanup_work_item_is_ready` looks at these. -/
def looksAt (s : EphemeralServiceImpl) (tableName file : String) : Bool :=
  [none, some "es"].any fun extension =>
    ((s.getPublishedCheckpointSync .active tableName extension).bind (s.getCheckpointSync tableName)).any fun checkpoint =>
      file ∈ checkpoint.speedboatPaths || file ∈ checkpoint.deletePaths

/-- An item that is handed out has none of these files. -/
theorem notMem_of_looksAt {now : Int} {tracker : CleanupWorkItemTracker} {file : String}
    (h : s.cleanupClaimable now tracker = true) (hfile : looksAt s tracker.workItem.tableName file = true) :
    file ∉ tracker.workItem.filesToDelete := by
  intro hmem
  obtain ⟨hready, -⟩ := and_eq_true_iff.mp h
  obtain ⟨extension, hextension, hactive⟩ := any_eq_true.mp hfile
  have hfree := all_eq_true.mp hready extension hextension
  cases hcheckpoint : (s.getPublishedCheckpointSync .active tracker.workItem.tableName extension).bind
      (s.getCheckpointSync tracker.workItem.tableName) with
  | none =>
    rw [hcheckpoint] at hactive
    cases hactive
  | some checkpoint =>
    rw [hcheckpoint] at hactive hfree
    have hused : checkpointReferencesAnyCleanupFile checkpoint tracker.workItem.filesToDelete = true := by
      rcases or_eq_true_iff.mp hactive with hin | hin
      · exact or_eq_true_iff.mpr (Or.inl (any_eq_true.mpr ⟨file, of_decide_eq_true hin, decide_eq_true hmem⟩))
      · exact or_eq_true_iff.mpr (Or.inr (any_eq_true.mpr ⟨file, of_decide_eq_true hin, decide_eq_true hmem⟩))
    simp [hused] at hfree

section

variable (m)

def step (c : TimedCall) : Option CleanupMonitor :=
  (m.service.step c).map fun s => ⟨s, m.handed ++ handedBy m.service c⟩

/-- The step condition. When work items are asked for, no checkpoint that is or may become active refers to
a file of an item that is handed out; the files at which the service looks itself are left aside. A commit or
an added checkpoint names no file that was handed out. -/
def stepOk (c : TimedCall) : Bool :=
  match c.call with
  | .getCleanupWorkItems => decide (∀ checkpoint ∈ m.service.catalog.liveCheckpoints,
      ∀ tracker ∈ m.service.cleanupWorkItems, m.service.cleanupClaimable c.now tracker = true →
        ∀ file ∈ checkpoint.referencedPaths, looksAt m.service tracker.workItem.tableName file = false →
          file ∉ tracker.workItem.filesToDelete)
  | .speedboatCommit commit =>
    decide (∀ info ∈ commit.typeFiles, ∀ file ∈ infoFiles info, file ∉ m.handed)
  | .icebergCommit _ commit => decide (∀ file ∈ commit.metadata.files.filePaths, file ∉ m.handed)
  | .addCheckpoint metadata => m.service.catalog.AddedIdOk metadata.checkpointId &&
      decide (∀ file ∈ metadata.referencedPaths, file ∉ m.handed) &&
      decide (∀ checkpoint ∈ m.service.catalog.checkpointsOfId metadata.checkpointId,
        ∀ file ∈ checkpoint.referencedPaths, file ∉ m.handed)
  | _ => true

def Safe : Prop :=
  ∀ tableName extension id checkpoint, m.service.getPublishedCheckpointSync .active tableName extension = some id →
    m.service.getCheckpointSync tableName id = some checkpoint →
    ∀ file ∈ m.handed, file ∉ checkpoint.referencedPaths

/-- The invariant behind `Safe`: nothing that may still become active refers to the files either. -/
structure Inv : Prop where
  fresh : m.service.catalog.Fresh
  clear : m.service.catalog.Clear m.handed

end

theorem Inv.safe (h : m.Inv) : m.Safe := by
  intro tableName extension id checkpoint hactive hcheckpoint file hfile hmem
  exact h.clear id (Or.inl ⟨tableName, extension, hactive⟩) tableName checkpoint hcheckpoint file hmem hfile

theorem inv_new (mode : CompactionMode) (ids : IdInstance) : (new mode ids).Inv :=
  ⟨fun _ _ _ => rfl, fun _ _ _ _ h => by cases h⟩

theorem handedBy_eq_nil (h : c.call ≠ .getCleanupWorkItems) : handedBy s c = [] := by
  unfold handedBy
  split
  · contradiction
  · rfl

theorem clear_step (hinv : m.Inv) (hok : m.stepOk c = true) (hstep : m.service.step c = some s) :
    s.catalog.Fresh ∧ s.catalog.Clear m.handed := by
  obtain ⟨now, call⟩ := c
  cases step_catalogEffect hstep with
  | publish h => exact h.clear hinv.fresh hinv.clear
  | addAlias h | removeAlias h =>
    rw [h]
    exact ⟨hinv.fresh, hinv.clear⟩
  | speedboat h => exact h.clear hinv.fresh hinv.clear (of_decide_eq_true hok)
  | iceberg h => exact h.clear hinv.fresh hinv.clear (of_decide_eq_true hok)
  | extension h => exact h.clear hinv.fresh hinv.clear
  | add h =>
    obtain ⟨hboth, hstored⟩ := and_eq_true_iff.mp hok
    obtain ⟨hid, hmetadata⟩ := and_eq_true_iff.mp hboth
    exact h.clear hinv.fresh hinv.clear hid (of_decide_eq_true hmetadata) (of_decide_eq_true hstored)

theorem inv_step (m : CleanupMonitor) (c : TimedCall) (m' : CleanupMonitor) (hinv : m.Inv)
    (hok : m.stepOk c = true) (hstep : m.step c = some m') : m'.Inv := by
  obtain ⟨s, hs, rfl⟩ := map_eq_some_iff.mp hstep
  by_cases hcall : c.call = .getCleanupWorkItems
  · obtain ⟨now, call⟩ := c
    cases hcall
    cases hs
    have hnew : m.service.catalog.Clear (handedBy m.service ⟨now, .getCleanupWorkItems⟩) := by
      intro id hlive tableName checkpoint hc file hfile hmem
      have hcheckpoint := mem_flatMap.mpr ⟨id, mem_liveIds hlive, mem_checkpointsOfId hc⟩
      obtain ⟨item, hitem, hdelete⟩ := mem_flatMap.mp hmem
      obtain ⟨tracker, htracker, rfl⟩ := mem_map.mp hitem
      obtain ⟨htracker, hclaim⟩ := mem_filter.mp htracker
      cases hlooks : looksAt m.service tracker.workItem.tableName file with
      | true => exact notMem_of_looksAt hclaim hlooks hdelete
      | false => exact of_decide_eq_true hok checkpoint hcheckpoint tracker htracker hclaim file hfile hlooks hdelete
    refine ⟨hinv.fresh, ?_⟩
    intro id hlive tableName checkpoint hcheckpoint file hfile hmem
    rcases mem_append.mp hmem with hold | hmem
    · exact hinv.clear id hlive tableName checkpoint hcheckpoint file hfile hold
    · exact hnew id hlive tableName checkpoint hcheckpoint file hfile hmem
  · obtain ⟨hfresh, hclear⟩ := clear_step hinv hok hs
    refine ⟨hfresh, ?_⟩
    rw [handedBy_eq_nil hcall, append_nil]
    exact hclear

/-- **Cleanup safety.** In every run whose calls meet the step condition, no checkpoint that is active
in the state reached refers to a file handed out for deletion at any earlier point. -/
theorem safe_of_exec {mode : CompactionMode} {ids : IdInstance} {calls : List TimedCall}
    {m : CleanupMonitor} (hok : Run.Along step (fun m c => m.stepOk c = true) (new mode ids) calls)
    (hrun : Run.exec step (new mode ids) calls = some m) : m.Safe :=
  (Run.exec_invariant inv_step (inv_new mode ids) hok hrun).safe

/-! ### Two runs of one table -/

def logsSchema : PowdrrSchema := ⟨[⟨"_id", .string⟩]⟩

def partOne : IcebergMetadata :=
  { tableSchema := logsSchema, snapshotId := none, files := .single "part-1.parquet" 10 logsSchema }

/-- One segment of the table `logs` is committed, compacted into `part-1.parquet`, and the compaction
committed, by a service that compacts from one speedboat file on. Checkpoint `1` refers to the segment,
checkpoint `4` to the compacted file, and both wait for the extension `es`. -/
def compactedLogs : List TimedCall :=
  [⟨0, .speedboatCommit ⟨[.fromSegments "commit" "logs" [⟨"s1", "seg-1", 10⟩] (some logsSchema)], none⟩⟩,
   ⟨1, .compactionCommit "logs" ⟨["seg-1"], [], "part-1", "3", "1", []⟩⟩,
   ⟨2, .icebergCommit "logs" ⟨partOne, none, ["3"]⟩⟩]

/-- A serving node activates a checkpoint of `logs` for `es` once the projection is ready. -/
def activateLogs (checkpointId : String) : List TimedCall :=
  let selector := .forTarget "logs" (some "es")
  [⟨5, .heartbeatServingNode ⟨"n1", 0, 5⟩⟩, ⟨6, .updateAllCheckpoints⟩,
   ⟨7, .recordArtifactReadiness ⟨selector, checkpointId, 1, .searchProjection, "b1", 7⟩⟩,
   ⟨8, .recordServingNodeActivation ⟨selector, "n1", 1, checkpointId, 8⟩⟩,
   ⟨9, .updateAllCheckpoints⟩]

/-- The extension files of both checkpoints arrive before the cleanup work is asked for. -/
def earlyExtensionCalls : List TimedCall := compactedLogs ++
  [⟨3, .extensionCommit "logs" ⟨"e1", "es", (Dict.single "seg-1" []).insert "part-1.parquet" []⟩⟩,
   ⟨4, .getCleanupWorkItems⟩] ++ activateLogs "4"

theorem safe_of_exec_earlyExtensionCalls :
    ∃ m, Run.exec step (new (.async (some 1)) .counting) earlyExtensionCalls = some m ∧
      m.handed = ["seg-1"] ∧ m.Safe := by
  exact Run.exists_end (p := fun m => m.handed = ["seg-1"]) (by decide +kernel) fun m hm hhanded =>
    ⟨hhanded, safe_of_exec (by decide +kernel) hm⟩

/-- The extension files of the older checkpoint arrive after its segment was handed out. -/
def lateExtensionCalls : List TimedCall := compactedLogs ++ [⟨3, .getCleanupWorkItems⟩,
   ⟨4, .extensionCommit "logs" ⟨"e1", "es", Dict.single "seg-1" []⟩⟩] ++ activateLogs "1"

/-- The older checkpoint becomes active for `es` although its segment has been handed out. -/
theorem not_safe_lateExtensionCalls :
    ∃ m, Run.exec step (new (.async (some 1)) .counting) lateExtensionCalls = some m ∧ ¬ m.Safe := by
  refine Run.exists_end (p := fun m =>
    ∃ id, m.service.getPublishedCheckpointSync .active "logs" (some "es") = some id ∧
    ∃ checkpoint, m.service.getCheckpointSync "logs" id = some checkpoint ∧
    ∃ file ∈ m.handed, file ∈ checkpoint.referencedPaths) (by decide +kernel) ?_
  rintro m - ⟨id, hid, checkpoint, hcheckpoint, file, hhanded, hfile⟩ hsafe
  exact hsafe _ _ id checkpoint hid hcheckpoint file hhanded hfile

end CleanupMonitor

end PowdrrEngine
