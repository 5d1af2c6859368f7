import PowdrrEngine.LibDict
import PowdrrEngine.ContractJson
import PowdrrEngine.ContractFiles
import Mathlib.Data.List.Dedup

/-! The data contract between the workers and the metadata service: what a commit carries, what a
table's checkpoint records, the work items derived from a checkpoint, and the operations of
`TableMetadataCheckpoint` the service uses. -/

namespace PowdrrEngine

open List AList

/-! ### Commits -/

structure SpeedboatSegmentFile where
  segmentId : String
  filePath : String
  size : Nat
  deriving DecidableEq

structure SpeedboatCommitTableInfo where
  commitType : String
  tableName : String
  segments : List SpeedboatSegmentFile
  files : List String
  sizes : List Nat
  schema : Option PowdrrSchema
  deriving DecidableEq

namespace SpeedboatCommitTableInfo

/-- The table info of a list of segments: `files` and `sizes` repeat the segments' own. -/
def fromSegments (commitType tableName : String) (segments : List SpeedboatSegmentFile)
    (schema : Option PowdrrSchema) : SpeedboatCommitTableInfo :=
  { commitType, tableName, segments, schema,
    files := segments.map (·.filePath), sizes := segments.map (·.size) }

def segmentFiles (info : SpeedboatCommitTableInfo) : List (String × Nat) :=
  if info.segments.isEmpty then info.files.zip info.sizes
  else info.segments.map fun segment => (segment.filePath, segment.size)

def asFileSetPayload (info : SpeedboatCommitTableInfo) : Option FileSetPayload :=
  info.schema.map fun schema =>
    { filePaths := info.segmentFiles.map Prod.fst
      sizes := info.segmentFiles.map Prod.snd
      schemas := [schema]
      fileSchemas := info.segmentFiles.map fun _ => 0 }

theorem wf_asFileSetPayload {info : SpeedboatCommitTableInfo} {payload : FileSetPayload}
    (h : info.asFileSetPayload = some payload) : payload.Wf := by
  obtain ⟨schema, -, rfl⟩ := Option.map_eq_some_iff.mp h
  refine ⟨by simp, by simp, ?_⟩
  intro i hi
  obtain ⟨_, -, rfl⟩ := mem_map.mp hi
  exact Nat.one_pos

end SpeedboatCommitTableInfo

structure SpeedboatCommit where
  typeFiles : List SpeedboatCommitTableInfo
  compaction : Option String
  deriving DecidableEq

/-! ### Iceberg metadata -/

structure IcebergColumnStats where
  fieldId : Int
  fieldName : String
  nullCount : Option Nat
  lowerBound : Option Value
  upperBound : Option Value
  deriving DecidableEq

structure IcebergPartitionField where
  sourceFieldId : Int
  sourceFieldName : String
  fieldId : Int
  fieldName : String
  transform : String
  deriving DecidableEq

structure IcebergPartitionValue where
  sourceFieldName : String
  fieldName : String
  transform : String
  value : Option Value
  deriving DecidableEq

structure IcebergSortField where
  sourceFieldId : Int
  sourceFieldName : String
  transform : String
  descending : Bool
  nullsFirst : Bool
  deriving DecidableEq

structure IcebergAccessArtifact where
  name : String
  kind : String
  fields : List String
  exact : Bool
  supportsEq : Bool
  supportsRange : Bool
  supportsOrder : Bool
  deriving DecidableEq

structure IcebergRowGroupStats where
  rowGroupIndex : Nat
  recordCount : Option Nat
  compressedBytes : Nat
  pageIndexPresent : Bool
  bloomFilterPresent : Bool
  columns : List IcebergColumnStats
  deriving DecidableEq

structure IcebergFileStats where
  filePath : String
  recordCount : Option Nat
  columns : List IcebergColumnStats
  partitionValues : List IcebergPartitionValue
  rowGroups : List IcebergRowGroupStats
  deriving DecidableEq

structure IcebergMetadata where
  tableSchema : PowdrrSchema
  snapshotId : Option String
  files : FileSetPayload
  partitionSpec : List IcebergPartitionField := []
  sortOrder : List IcebergSortField := []
  columnNames : List String := []
  columnStats : List (String × String) := []
  accessArtifacts : List IcebergAccessArtifact := []
  fileStats : List IcebergFileStats := []
  deriving DecidableEq

structure IcebergCommit where
  metadata : IcebergMetadata
  deletesTableInfo : Option SpeedboatCommitTableInfo
  compactions : List String
  deriving DecidableEq

structure SpeedboatMetadata where
  files : FileSetPayload
  deriving DecidableEq

structure DeletesMetadata where
  files : List String
  deriving DecidableEq

structure ExtensionFile where
  suffix : String
  location : String
  deriving DecidableEq

abbrev ExtensionFileMetadata := Dict String (List ExtensionFile)

structure ExtensionCommit where
  id : String
  extension : String
  files : ExtensionFileMetadata

structure CompactionCommit where
  removedSpeedboatFiles : List String
  removedDeleteFiles : List String
  parquetFileName : String
  compactionId : String
  checkpointIdToReplace : String
  checkpointsToDelete : List String
  deriving DecidableEq

structure CleanupCommit where
  id : String
  tableName : String
  deriving DecidableEq

structure CheckpointDescriptor where
  tableName : String
  checkpointId : String
  originalCheckpointId : Option String
  deriving DecidableEq

/-! ### Checkpoints -/

/-- The state of a table as one checkpoint records it. -/
structure TableMetadataCheckpoint where
  tableName : String
  originalCheckpointId : Option String := none
  checkpointId : String
  icebergMetadata : Option IcebergMetadata := none
  speedboatMetadata : Option SpeedboatMetadata := none
  deletesMetadata : Option DeletesMetadata := none
  extensionMetadata : Dict String ExtensionFileMetadata := ∅
  schema : PowdrrSchema

/-- The key under which a checkpoint keeps extension files of its own, `"__checkpoint__:" ++ id`. -/
def checkpointExtensionMetadataKey (checkpointId : String) : String := "__checkpoint__:" ++ checkpointId

namespace TableMetadataCheckpoint

variable (c : TableMetadataCheckpoint) {paths : List String} {path : String}

def icebergFiles : FileSetPayload :=
  match c.icebergMetadata with
  | some metadata => metadata.files
  | none => .new

def speedboatFiles : FileSetPayload :=
  match c.speedboatMetadata with
  | some metadata => metadata.files
  | none => .new

def icebergPaths : List String := c.icebergFiles.filePaths

def speedboatPaths : List String := c.speedboatFiles.filePaths

def deletePaths : List String := (c.deletesMetadata.map (·.files)).getD []

/-- `current_file_paths`: the data files, each once. -/
def currentFilePaths : List String := (c.icebergPaths ++ c.speedboatPaths).dedup

/-- Forget extension files of data files the checkpoint no longer has. -/
def retainCurrentExtensionMetadata : TableMetadataCheckpoint :=
  { c with extensionMetadata := c.extensionMetadata.mapValues fun _ metadata =>
      metadata.retain fun path _ =>
        path ∈ c.currentFilePaths || path = checkpointExtensionMetadataKey c.checkpointId }

variable (extension : String)

def extensionMap : ExtensionFileMetadata := c.extensionMetadata.getD extension ∅

/-- `validate_fully_covered_for_extension`: every data file has an entry. -/
def validateFullyCoveredForExtension : Bool :=
  (c.icebergPaths ++ c.speedboatPaths).all fun path => path ∈ c.extensionMap extension

/-- `fully_covered_for_extension`: the count of covered files against the count of files. The source
asserts that the answer agrees with the direct check; a failed assertion is `none`. -/
def fullyCoveredForExtension : Option Bool :=
  let covered := (c.extensionMap extension).keys.filter fun path => path ∈ c.currentFilePaths
  let sizeCheck := decide (c.currentFilePaths.length = covered.length)
  if sizeCheck = c.validateFullyCoveredForExtension extension then some sizeCheck else none

/-- One pass of `add_coverage` over a list of data files: a file gets the commit's extension files
unless it had some before. -/
def coverPaths (existing files : ExtensionFileMetadata) (paths : List String)
    (acc : ExtensionFileMetadata) : ExtensionFileMetadata :=
  paths.foldl (fun acc path =>
    match files.lookup path with
    | some extensionFiles => if path ∈ existing then acc else acc.insert path extensionFiles
    | none => acc) acc

/-- `add_coverage`: the iceberg files, the speedboat files and the checkpoint's own key. -/
def addCoverage (commit : ExtensionCommit) : TableMetadataCheckpoint :=
  let existing := c.extensionMap commit.extension
  let covered := coverPaths existing commit.files
    (c.icebergPaths ++ c.speedboatPaths ++ [checkpointExtensionMetadataKey c.checkpointId]) existing
  { c with extensionMetadata := c.extensionMetadata.insert commit.extension covered }

def referencedPaths : List String := c.icebergPaths ++ c.speedboatPaths ++ c.deletePaths

theorem covered_length_eq_iff {files keys : List String} (hf : files.Nodup) (hk : keys.Nodup) :
    files.length = (keys.filter fun path => path ∈ files).length ↔ ∀ path ∈ files, path ∈ keys := by
  have hsub : keys.filter (fun path => path ∈ files) ⊆ files := by
    intro path h
    simpa using (mem_filter.mp h).2
  have hperm := subperm_of_subset (hk.filter _) hsub
  constructor
  · intro hlen path hmem
    have := (hperm.perm_of_length_le hlen.le).mem_iff.mpr hmem
    exact (mem_filter.mp this).1
  · intro hall
    refine le_antisymm (subperm_of_subset hf ?_).length_le hperm.length_le
    intro path hmem
    exact mem_filter.mpr ⟨hall path hmem, by simpa using hmem⟩

theorem fullyCoveredForExtension_eq :
    c.fullyCoveredForExtension extension = some (c.validateFullyCoveredForExtension extension) := by
  have hnodup : c.currentFilePaths.Nodup := nodup_dedup _
  have hiff := covered_length_eq_iff hnodup (c.extensionMap extension).keys_nodup
  have hvalidate : c.validateFullyCoveredForExtension extension = true ↔
      ∀ path ∈ c.currentFilePaths, path ∈ (c.extensionMap extension).keys := by
    simp only [validateFullyCoveredForExtension, currentFilePaths, all_eq_true, mem_dedup,
      decide_eq_true_eq, AList.mem_keys]
  have hcheck : decide (c.currentFilePaths.length =
      ((c.extensionMap extension).keys.filter fun path => path ∈ c.currentFilePaths).length) =
        c.validateFullyCoveredForExtension extension := by
    rw [Bool.eq_iff_iff, decide_eq_true_eq, hiff, hvalidate]
  unfold fullyCoveredForExtension
  rw [if_pos hcheck, hcheck]

/-! ### Coverage -/

theorem mem_extensionMap_of_mapValues {c c' : TableMetadataCheckpoint} {p : String → List ExtensionFile → Bool}
    (hc' : c'.extensionMetadata = c.extensionMetadata.mapValues fun _ metadata => metadata.retain p)
    {extension : String} (h : path ∈ c'.extensionMap extension) : path ∈ c.extensionMap extension := by
  unfold extensionMap Dict.getD at h ⊢
  rw [hc', Dict.lookup_mapValues] at h
  cases hmetadata : c.extensionMetadata.lookup extension with
  | none =>
    rw [hmetadata] at h
    exact absurd h (notMem_empty path)
  | some metadata =>
    rw [hmetadata] at h
    obtain ⟨files, hfiles⟩ := Option.isSome_iff_exists.mp (lookup_isSome.mpr h)
    rw [Option.map_some, Option.getD_some, Dict.lookup_retain, Option.filter_eq_some_iff] at hfiles
    rw [Option.getD_some]
    exact lookup_isSome.mp (Option.isSome_iff_exists.mpr ⟨files, hfiles.1⟩)

variable {existing files acc : ExtensionFileMetadata}

theorem mem_coverPaths : path ∈ coverPaths existing files paths acc ↔
      path ∈ acc ∨ path ∈ paths ∧ path ∈ files ∧ path ∉ existing := by
  unfold coverPaths
  induction paths generalizing acc with
  | nil => simp
  | cons first paths ih =>
    rw [foldl_cons, ih, mem_cons]
    by_cases hpath : path = first
    · subst hpath
      cases hfiles : files.lookup path with
      | none =>
        have hnotMem : path ∉ files := lookup_eq_none.mp hfiles
        simp [hnotMem]
      | some extensionFiles =>
        have hmem : path ∈ files := lookup_isSome.mp (by rw [hfiles]; rfl)
        by_cases hexisting : path ∈ existing
        · simp [hexisting]
        · simp [hexisting, hmem, mem_insert]
    · have hacc : path ∈ (match files.lookup first with
          | some extensionFiles => if first ∈ existing then acc else acc.insert first extensionFiles
          | none => acc) ↔ path ∈ acc := by
        cases files.lookup first with
        | none => rfl
        | some extensionFiles =>
          dsimp only
          split
          · rfl
          · simp [mem_insert, hpath]
      rw [hacc]
      simp [hpath]

theorem coverPaths_eq_self
    (h : ∀ path ∈ paths, path ∈ files → path ∈ existing) : coverPaths existing files paths acc = acc := by
  unfold coverPaths
  induction paths generalizing acc with
  | nil => rfl
  | cons first paths ih =>
    rw [foldl_cons, ih fun path hpath => h path (mem_cons_of_mem _ hpath)]
    cases hfiles : files.lookup first with
    | none => rfl
    | some extensionFiles =>
      have hmem : first ∈ files := lookup_isSome.mp (by rw [hfiles]; rfl)
      exact if_pos (h first mem_cons_self hmem)

section

variable (commit : ExtensionCommit) {path : String}

theorem extensionMap_addCoverage : (c.addCoverage commit).extensionMap commit.extension =
      coverPaths (c.extensionMap commit.extension) commit.files
        (c.icebergPaths ++ c.speedboatPaths ++ [checkpointExtensionMetadataKey c.checkpointId])
        (c.extensionMap commit.extension) := by
  unfold addCoverage
  dsimp only
  rw [extensionMap, Dict.getD, lookup_insert, Option.getD_some]

theorem mem_extensionMap_addCoverage (h : path ∈ c.icebergPaths ++ c.speedboatPaths) :
    path ∈ (c.addCoverage commit).extensionMap commit.extension ↔
      path ∈ c.extensionMap commit.extension ∨ path ∈ commit.files := by
  rw [extensionMap_addCoverage, mem_coverPaths]
  have hmem : path ∈ c.icebergPaths ++ c.speedboatPaths ++
      [checkpointExtensionMetadataKey c.checkpointId] := mem_append_left _ h
  by_cases hexisting : path ∈ c.extensionMap commit.extension <;>
    simp only [hexisting, hmem, true_or, true_and, false_or, not_false_eq_true, and_true]

theorem extensionMap_addCoverage_of_ne {extension : String} (h : extension ≠ commit.extension) :
    (c.addCoverage commit).extensionMap extension = c.extensionMap extension := by
  unfold addCoverage
  dsimp only
  rw [extensionMap, Dict.getD, lookup_insert_ne h, extensionMap, Dict.getD]

theorem validateFullyCoveredForExtension_addCoverage {extension : String}
    (h : c.validateFullyCoveredForExtension extension = true) :
    (c.addCoverage commit).validateFullyCoveredForExtension extension = true := by
  simp only [validateFullyCoveredForExtension, all_eq_true, decide_eq_true_eq] at h ⊢
  intro path hpath
  by_cases hext : extension = commit.extension
  · subst hext
    exact (c.mem_extensionMap_addCoverage commit hpath).mpr (Or.inl (h path hpath))
  · rw [extensionMap_addCoverage_of_ne _ _ hext]
    exact h path hpath

theorem addCoverage_addCoverage : (c.addCoverage commit).addCoverage commit = c.addCoverage commit := by
  have hself : coverPaths ((c.addCoverage commit).extensionMap commit.extension) commit.files
      (c.icebergPaths ++ c.speedboatPaths ++ [checkpointExtensionMetadataKey c.checkpointId])
      ((c.addCoverage commit).extensionMap commit.extension) =
        (c.addCoverage commit).extensionMap commit.extension := by
    refine coverPaths_eq_self fun path hpath hfiles => ?_
    rw [extensionMap_addCoverage, mem_coverPaths]
    by_cases hexisting : path ∈ c.extensionMap commit.extension
    · exact Or.inl hexisting
    · exact Or.inr ⟨hpath, hfiles, hexisting⟩
  have htwice : ((c.addCoverage commit).addCoverage commit).extensionMetadata =
      (c.addCoverage commit).extensionMetadata.insert commit.extension
        ((c.addCoverage commit).extensionMap commit.extension) := by
    conv_rhs => rw [← hself]
    rfl
  have honce : (c.addCoverage commit).extensionMetadata = c.extensionMetadata.insert commit.extension
      ((c.addCoverage commit).extensionMap commit.extension) := by
    rw [extensionMap_addCoverage]
    rfl
  have hmetadata : ((c.addCoverage commit).addCoverage commit).extensionMetadata =
      (c.addCoverage commit).extensionMetadata := by
    rw [htwice, honce, insert_insert]
  calc (c.addCoverage commit).addCoverage commit
      = { c with extensionMetadata := ((c.addCoverage commit).addCoverage commit).extensionMetadata } := rfl
    _ = { c with extensionMetadata := (c.addCoverage commit).extensionMetadata } := by rw [hmetadata]

/-- The files that a commit can cover: the data files and the checkpoint's own key. -/
def coverable : List String := c.icebergPaths ++ c.speedboatPaths ++ [checkpointExtensionMetadataKey c.checkpointId]

theorem mem_extensionMap_addCoverage_iff {extension : String} :
    path ∈ (c.addCoverage commit).extensionMap extension ↔ path ∈ c.extensionMap extension ∨
      path ∈ c.coverable ∧ commit.extension = extension ∧ path ∈ commit.files := by
  by_cases hext : extension = commit.extension
  · subst hext
    rw [extensionMap_addCoverage, mem_coverPaths]
    by_cases hexisting : path ∈ c.extensionMap commit.extension <;> simp [hexisting, coverable]
  · simp [extensionMap_addCoverage_of_ne _ _ hext, Ne.symm hext]

theorem mem_extensionMap_foldl_addCoverage (commits : List ExtensionCommit) {extension : String} :
    path ∈ (commits.foldl addCoverage c).extensionMap extension ↔ path ∈ c.extensionMap extension ∨
      path ∈ c.coverable ∧ ∃ commit ∈ commits, commit.extension = extension ∧ path ∈ commit.files := by
  induction commits generalizing c with
  | nil => simp
  | cons commit commits ih =>
    have hsame : (c.addCoverage commit).coverable = c.coverable := rfl
    rw [foldl_cons, ih, mem_extensionMap_addCoverage_iff, hsame, or_assoc, ← and_or_left]
    simp

theorem mem_extensionMap_retain {extension : String} (h : path ∈ c.extensionMap extension)
    (hpath : path ∈ c.currentFilePaths) : path ∈ c.retainCurrentExtensionMetadata.extensionMap extension := by
  unfold retainCurrentExtensionMetadata extensionMap Dict.getD at *
  rw [Dict.lookup_mapValues]
  cases hmetadata : c.extensionMetadata.lookup extension with
  | none => simp [hmetadata] at h
  | some metadata =>
    rw [hmetadata, Option.getD_some] at h
    obtain ⟨files, hfiles⟩ := Option.isSome_iff_exists.mp (lookup_isSome.mpr h)
    refine lookup_isSome.mp ?_
    rw [Option.map_some, Option.getD_some, Dict.lookup_retain, hfiles, Option.filter_some_pos (by simp [hpath])]
    rfl

/-- **Coverage.** A file is covered where it was before or where a commit brings it for the checkpoint. So the
commits can come in any order and any number of times, no coverage of a file of the checkpoint is lost, and
the two counts always agree. -/
theorem coverage_bookkeeping (commits commits' : List ExtensionCommit)
    (hsame : ∀ commit, commit ∈ commits ↔ commit ∈ commits') (extension : String) :
    (∀ path, path ∈ (commits.foldl addCoverage c).extensionMap extension ↔ path ∈ c.extensionMap extension ∨
      path ∈ c.coverable ∧ ∃ commit ∈ commits, commit.extension = extension ∧ path ∈ commit.files) ∧
    (∀ path, path ∈ (commits.foldl addCoverage c).extensionMap extension ↔
      path ∈ (commits'.foldl addCoverage c).extensionMap extension) ∧
    (∀ path ∈ c.extensionMap extension, path ∈ (commits.foldl addCoverage c).extensionMap extension) ∧
    (∀ path ∈ c.extensionMap extension, path ∈ c.currentFilePaths →
      path ∈ c.retainCurrentExtensionMetadata.extensionMap extension) ∧
    (c.fullyCoveredForExtension extension).isSome = true := by
  refine ⟨fun path => c.mem_extensionMap_foldl_addCoverage commits, fun path => ?_, fun path h => ?_,
    fun path => c.mem_extensionMap_retain, ?_⟩
  · simp [mem_extensionMap_foldl_addCoverage, hsame]
  · exact (c.mem_extensionMap_foldl_addCoverage commits).mpr (Or.inl h)
  · rw [fullyCoveredForExtension_eq]
    rfl

end

def bare : TableMetadataCheckpoint := { tableName := "t", checkpointId := "c", schema := .minimal }

def ownFiles (id : String) : ExtensionCommit := ⟨id, "es", Dict.single (checkpointExtensionMetadataKey "c") []⟩

/-- The checkpoint's own key is covered in either order; a file that the checkpoint does not have is not. -/
theorem coverage_bookkeeping_twice :
    checkpointExtensionMetadataKey "c" ∈ ([ownFiles "1", ownFiles "2"].foldl addCoverage bare).extensionMap "es" ∧
      checkpointExtensionMetadataKey "c" ∈
        ([ownFiles "2", ownFiles "1", ownFiles "2"].foldl addCoverage bare).extensionMap "es" ∧
      checkpointExtensionMetadataKey "d" ∉ ([ownFiles "1", ownFiles "2"].foldl addCoverage bare).extensionMap "es" := by
  obtain ⟨hmem, hsame, -⟩ := bare.coverage_bookkeeping [ownFiles "1", ownFiles "2"]
    [ownFiles "2", ownFiles "1", ownFiles "2"] (by simp [or_comm, or_left_comm]) "es"
  have hcovered := (hmem (checkpointExtensionMetadataKey "c")).mpr
    (Or.inr ⟨by decide, ownFiles "1", mem_cons_self, rfl, by decide⟩)
  refine ⟨hcovered, (hsame _).mp hcovered, fun hother => ?_⟩
  rcases (hmem _).mp hother with hbefore | ⟨hcoverable, -⟩
  · exact absurd hbefore (by decide)
  · exact absurd hcoverable (by decide)

end TableMetadataCheckpoint

/-! ### Work items -/

structure ExtensionWorkItem where
  id : String
  extensionType : String
  tableName : String
  checkpointId : Option String
  tableSchema : PowdrrSchema
  speedboatFiles : FileSetPayload
  icebergFiles : FileSetPayload
  deriving DecidableEq

def ExtensionWorkItem.hasWork (item : ExtensionWorkItem) : Bool :=
  0 < item.speedboatFiles.len || 0 < item.icebergFiles.len

structure CompactionWorkItem where
  id : String
  tableSchema : PowdrrSchema
  speedboatFiles : FileSetPayload
  deleteFiles : List String
  checkpointIdToReplace : String
  checkpointsToDelete : List String
  deriving DecidableEq

/-- `CompactionWorkItem::from_checkpoint` under the id drawn for it; a checkpoint without speedboat
metadata stops the service. -/
def CompactionWorkItem.fromCheckpoint (id : String) (checkpoint : TableMetadataCheckpoint)
    (checkpointsToDelete : List String) : Option CompactionWorkItem :=
  checkpoint.speedboatMetadata.map fun speedboat =>
    { id, tableSchema := checkpoint.schema, speedboatFiles := speedboat.files,
      deleteFiles := checkpoint.deletePaths, checkpointIdToReplace := checkpoint.checkpointId,
      checkpointsToDelete }

structure CleanupWorkItem where
  id : String
  tableName : String
  filesToDelete : List String
  deriving DecidableEq

end PowdrrEngine
