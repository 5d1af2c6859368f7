import PowdrrEngine.ContractSchema
import PowdrrEngine.LibList
import Mathlib.Data.List.Infix

/-! File sets: the parallel arrays in which the control plane keeps the files of a checkpoint. The
arrays are the source's own, so a payload that arrives over the wire can be out of step; an index
that leaves its array stops the service and is `none` here. `Wf` says that the arrays agree. The
operations keep it, and on well-formed payloads they never stop. -/

namespace PowdrrEngine

open List Lists
open Option (map_eq_some_iff map_some)

/-- One file of a file set. -/
structure FileDescriptor where
  filePath : String
  schema : PowdrrSchema
  size : Nat
  deriving DecidableEq

/-- The files of a checkpoint, a commit or a work item: paths, sizes and, for each file, the index of
its schema in `schemas`. -/
structure FileSetPayload where
  filePaths : List String
  schemas : List PowdrrSchema
  fileSchemas : List Nat
  sizes : List Nat
  deriving DecidableEq

namespace FileSetPayload

variable {p other r : FileSetPayload} {schemas : List PowdrrSchema} {paths toRemove paths' : List String}
  {files : List FileDescriptor} {sizes indexes sizes' : List Nat} {path : String} {file : FileDescriptor}
  {held : FileDescriptor}

def new : FileSetPayload := ⟨[], [], [], []⟩

def single (filePath : String) (size : Nat) (schema : PowdrrSchema) : FileSetPayload :=
  ⟨[filePath], [schema], [0], [size]⟩

/-- The number of files. -/
def len (p : FileSetPayload) : Nat := p.filePaths.length

/-- The loop of `remove`: a removed path takes the size and the schema index at its position with it
and stops the service where there is none. -/
def removeLoop (toRemove : List String) : List String → List Nat → List Nat → Option (List String × List Nat × List Nat)
  | [], sizes, fileSchemas => some ([], sizes, fileSchemas)
  | path :: paths, sizes, fileSchemas =>
    if path ∈ toRemove then
      match sizes, fileSchemas with
      | _ :: sizes, _ :: fileSchemas => removeLoop toRemove paths sizes fileSchemas
      | _, _ => none
    else
      (removeLoop toRemove paths sizes.tail fileSchemas.tail).map fun (paths', sizes', fileSchemas') =>
        (path :: paths', sizes.take 1 ++ sizes', fileSchemas.take 1 ++ fileSchemas')

/-- Drop the files whose path is listed. The schemas stay, also those no file uses any more. -/
def remove (p : FileSetPayload) (toRemove : List String) : Option FileSetPayload :=
  (removeLoop toRemove p.filePaths p.sizes p.fileSchemas).map fun (paths, sizes, fileSchemas) =>
    ⟨paths, p.schemas, fileSchemas, sizes⟩

/-- The walk of `as_file_tuples` over the zipped arrays; it ends with the shortest of them. -/
def fileTuples (schemas : List PowdrrSchema) : List String → List Nat → List Nat → Option (List FileDescriptor)
  | path :: paths, size :: sizes, index :: indexes =>
    (schemas[index]?).bind fun schema =>
      (fileTuples schemas paths sizes indexes).map fun rest => ⟨path, schema, size⟩ :: rest
  | _, _, _ => some []

def asFileTuples (p : FileSetPayload) : Option (List FileDescriptor) :=
  fileTuples p.schemas p.filePaths p.sizes p.fileSchemas

def add (p : FileSetPayload) (file : FileDescriptor) : FileSetPayload :=
  if file.filePath ∈ p.filePaths then p
  else
    match p.schemas.findIdx? fun schema => schema = file.schema with
    | some index =>
      { p with filePaths := p.filePaths ++ [file.filePath], sizes := p.sizes ++ [file.size],
               fileSchemas := p.fileSchemas ++ [index] }
    | none =>
      { filePaths := p.filePaths ++ [file.filePath], sizes := p.sizes ++ [file.size],
        fileSchemas := p.fileSchemas ++ [p.schemas.length], schemas := p.schemas ++ [file.schema] }

def mergeInplace (p other : FileSetPayload) : Option FileSetPayload :=
  other.asFileTuples.map fun files => files.foldl add p

/-- The union: the larger set is copied and the smaller one merged into it. -/
def merge (p other : FileSetPayload) : Option FileSetPayload :=
  if other.len < p.len then p.mergeInplace other else other.mergeInplace p

/-- `select`: the first file whose path contains the name, as a set of its own. Without one the assertion of
the source fails. -/
def select (p : FileSetPayload) (fileName : String) : Option FileSetPayload := do
  let i ← p.filePaths.findIdx? fun path => fileName.toList <:+: path.toList
  let path ← p.filePaths[i]?
  let size ← p.sizes[i]?
  let schema ← p.schemas[← p.fileSchemas[i]?]?
  return single path size schema

/-- The parallel arrays agree: one size and one schema index for each path, every index in range. -/
structure Wf (p : FileSetPayload) : Prop where
  sizes_length : p.sizes.length = p.filePaths.length
  fileSchemas_length : p.fileSchemas.length = p.filePaths.length
  index_lt : ∀ i ∈ p.fileSchemas, i < p.schemas.length

instance (p : FileSetPayload) : Decidable p.Wf :=
  decidable_of_iff (p.sizes.length = p.filePaths.length ∧ p.fileSchemas.length = p.filePaths.length ∧
      ∀ i ∈ p.fileSchemas, i < p.schemas.length)
    ⟨fun h => ⟨h.1, h.2.1, h.2.2⟩, fun h => ⟨h.1, h.2, h.3⟩⟩

theorem wf_new : new.Wf := ⟨rfl, rfl, by simp [new]⟩

/-! ### Entries -/

/-- What the arrays have at one position. -/
structure FileEntry where
  path : String
  size : Nat
  index : Nat

def ofEntries (schemas : List PowdrrSchema) (entries : List FileEntry) : FileSetPayload :=
  ⟨entries.map (·.path), schemas, entries.map (·.index), entries.map (·.size)⟩

def FileEntry.descriptor (schemas : List PowdrrSchema) (entry : FileEntry) : Option FileDescriptor :=
  schemas[entry.index]?.map fun schema => ⟨entry.path, schema, entry.size⟩

variable {entries : List FileEntry}

theorem exists_entries (hs : sizes.length = paths.length) (hi : indexes.length = paths.length) :
    ∃ entries : List FileEntry,
      paths = entries.map (·.path) ∧ sizes = entries.map (·.size) ∧ indexes = entries.map (·.index) := by
  induction paths generalizing sizes indexes with
  | nil => exact ⟨[], rfl, length_eq_zero_iff.mp hs, length_eq_zero_iff.mp hi⟩
  | cons path paths ih =>
    obtain ⟨size, sizes, rfl⟩ := exists_cons_of_length_eq_add_one hs
    obtain ⟨index, indexes, rfl⟩ := exists_cons_of_length_eq_add_one hi
    obtain ⟨entries, rfl, rfl, rfl⟩ := ih (Nat.succ.inj hs) (Nat.succ.inj hi)
    exact ⟨⟨path, size, index⟩ :: entries, rfl, rfl, rfl⟩

theorem wf_ofEntries (h : ∀ entry ∈ entries, entry.index < schemas.length) : (ofEntries schemas entries).Wf :=
  ⟨by simp [ofEntries], by simp [ofEntries], forall_mem_map.mpr h⟩

theorem Wf.eq_ofEntries (h : p.Wf) :
    ∃ entries, (∀ entry ∈ entries, entry.index < p.schemas.length) ∧ p = ofEntries p.schemas entries := by
  obtain ⟨paths, schemas, indexes, sizes⟩ := p
  obtain ⟨entries, rfl, rfl, rfl⟩ := exists_entries h.sizes_length h.fileSchemas_length
  exact ⟨entries, forall_mem_map.mp h.index_lt, rfl⟩

theorem asFileTuples_ofEntries : (ofEntries schemas entries).asFileTuples = entries.mapM (FileEntry.descriptor schemas) := by
  induction entries with
  | nil => rfl
  | cons entry entries ih =>
    rw [mapM_cons, ← ih]
    simp only [asFileTuples, ofEntries, map_cons, fileTuples, FileEntry.descriptor]
    cases schemas[entry.index]? with
    | none => rfl
    | some schema => cases fileTuples schemas (entries.map (·.path)) _ _ <;> rfl

/-- The set holds a file: path, size and schema. -/
def Holds (p : FileSetPayload) (file : FileDescriptor) : Prop := ∃ files, p.asFileTuples = some files ∧ file ∈ files

theorem Wf.asFileTuples (h : p.Wf) :
    ∃ files, p.asFileTuples = some files ∧ files.map FileDescriptor.filePath = p.filePaths := by
  obtain ⟨entries, hlt, heq⟩ := h.eq_ofEntries
  have hsome : (entries.mapM (FileEntry.descriptor p.schemas)).isSome :=
    isSome_mapM.mpr fun entry hentry => by simp [FileEntry.descriptor, hlt entry hentry]
  obtain ⟨files, hfiles⟩ := Option.isSome_iff_exists.mp hsome
  rw [heq, asFileTuples_ofEntries]
  refine ⟨files, hfiles, (map_eq_map_of_forall₂ ((forall₂_of_mapM hfiles).imp ?_)).symm⟩
  rintro entry file hfile
  obtain ⟨schema, -, rfl⟩ := map_eq_some_iff.mp hfile
  rfl

theorem holds_ofEntries_iff (h : ∀ entry ∈ entries, entry.index < schemas.length) :
    (ofEntries schemas entries).Holds file ↔ ∃ entry ∈ entries, entry.descriptor schemas = some file := by
  obtain ⟨files, hfiles, -⟩ := (wf_ofEntries h).asFileTuples
  have hall := forall₂_of_mapM (asFileTuples_ofEntries.symm.trans hfiles)
  constructor
  · rintro ⟨_, hfiles', hmem⟩
    cases hfiles.symm.trans hfiles'
    exact exists_mem_of_forall₂ hall hmem
  · rintro ⟨entry, hentry, hfile⟩
    obtain ⟨file', hmem, hfile'⟩ := exists_right_of_forall₂ hall hentry
    cases hfile.symm.trans hfile'
    exact ⟨files, hfiles, hmem⟩

/-! ### Adding -/

theorem mem_add : path ∈ (p.add file).filePaths ↔ path ∈ p.filePaths ∨ path = file.filePath := by
  unfold add
  split
  · constructor
    · exact Or.inl
    · rintro (h | rfl) <;> assumption
  · split <;> simp

theorem mem_foldl_add : path ∈ (files.foldl add p).filePaths ↔
      path ∈ p.filePaths ∨ path ∈ files.map FileDescriptor.filePath := by
  induction files generalizing p with
  | nil => simp
  | cons file files ih =>
    rw [foldl_cons, ih, mem_add, map_cons, mem_cons, or_assoc]

theorem add_ofEntries (hnew : file.filePath ∉ (ofEntries schemas entries).filePaths) :
    ∃ schemas' index, schemas <+: schemas' ∧ schemas'[index]? = some file.schema ∧
      (ofEntries schemas entries).add file = ofEntries schemas' (entries ++ [⟨file.filePath, file.size, index⟩]) := by
  rw [add, if_neg hnew]
  split
  · rename_i index hindex
    obtain ⟨hlt, hschema, -⟩ := List.findIdx?_eq_some_iff_getElem.mp hindex
    refine ⟨schemas, index, prefix_rfl, ?_, by simp [ofEntries]⟩
    exact (getElem?_eq_getElem hlt).trans (congrArg some (of_decide_eq_true hschema))
  · exact ⟨schemas ++ [file.schema], schemas.length, prefix_append _ _, getElem?_concat_length, by simp [ofEntries]⟩

theorem Wf.holds_add (h : p.Wf) (hnew : file.filePath ∉ p.filePaths) :
    (p.add file).Wf ∧ ∀ held, (p.add file).Holds held ↔ p.Holds held ∨ held = file := by
  obtain ⟨entries, hlt, heq⟩ := h.eq_ofEntries
  generalize p.schemas = schemas at *
  subst heq
  obtain ⟨_, index, ⟨more, rfl⟩, hindex, hadd⟩ := add_ofEntries hnew
  have hlt' : ∀ entry ∈ entries ++ [⟨file.filePath, file.size, index⟩], entry.index < (schemas ++ more).length := by
    refine forall_mem_append.mpr ⟨fun entry hentry => ?_, ?_⟩
    · exact (hlt entry hentry).trans_le (by simp)
    · simpa using (List.getElem?_eq_some_iff.mp hindex).1
  rw [hadd]
  refine ⟨wf_ofEntries hlt', fun held => ?_⟩
  rw [holds_ofEntries_iff hlt', holds_ofEntries_iff hlt]
  simp only [mem_append, mem_singleton, or_and_right, exists_or, exists_eq_left]
  refine or_congr (exists_congr fun entry => and_congr_right fun hentry => ?_) ?_
  · rw [FileEntry.descriptor, getElem?_append_left (hlt entry hentry), FileEntry.descriptor]
  · rw [FileEntry.descriptor, hindex, map_some, Option.some.injEq, eq_comm]

theorem add_of_mem (h : file.filePath ∈ p.filePaths) : p.add file = p := if_pos h

theorem Wf.add (h : p.Wf) (file : FileDescriptor) : (p.add file).Wf := by
  by_cases hmem : file.filePath ∈ p.filePaths
  · rwa [add_of_mem hmem]
  · exact (h.holds_add hmem).1

theorem Wf.foldl_add (h : p.Wf) : (files.foldl FileSetPayload.add p).Wf := foldlRecOn _ _ h fun _ h file _ => h.add file

theorem Holds.of_add (h : (p.add file).Holds held) (hp : p.Wf) :
    p.Holds held ∨ held = file ∧ file.filePath ∉ p.filePaths := by
  by_cases hmem : file.filePath ∈ p.filePaths
  · exact Or.inl (add_of_mem hmem ▸ h)
  · exact (((hp.holds_add hmem).2 held).mp h).imp_right fun heq => ⟨heq, hmem⟩

theorem Holds.of_foldl_add (h : (files.foldl FileSetPayload.add p).Holds held) (hp : p.Wf) :
    p.Holds held ∨ held ∈ files := by
  induction files generalizing p with
  | nil => exact Or.inl h
  | cons file files ih =>
    rcases ih h (hp.add file) with hadd | hmem
    · exact (hadd.of_add hp).imp_right fun ⟨heq, _⟩ => heq ▸ mem_cons_self
    · exact Or.inr (mem_cons_of_mem _ hmem)

/-! ### Listing and merging -/

theorem fileTuples_paths (h : fileTuples schemas paths sizes indexes = some files) :
    files.map FileDescriptor.filePath <+: paths := by
  fun_induction fileTuples generalizing files with
  | case1 path paths size sizes index indexes ih =>
    obtain ⟨schema, -, hmap⟩ := Option.bind_eq_some_iff.mp h
    obtain ⟨rest, hrest, rfl⟩ := map_eq_some_iff.mp hmap
    exact cons_prefix_cons.mpr ⟨rfl, ih hrest⟩
  | case2 =>
    cases h
    exact nil_prefix

theorem mem_of_mem_mergeInplace (h : p.mergeInplace other = some r) (hr : path ∈ r.filePaths) :
    path ∈ p.filePaths ∨ path ∈ other.filePaths := by
  obtain ⟨files, hfiles, rfl⟩ := map_eq_some_iff.mp h
  rcases mem_foldl_add.mp hr with hp | hf
  · exact Or.inl hp
  · exact Or.inr ((fileTuples_paths hfiles).subset hf)

theorem mem_merge_right (ho : other.Wf) (h : p.merge other = some r)
    (hpath : path ∈ other.filePaths) : path ∈ r.filePaths := by
  unfold merge at h
  split at h
  · obtain ⟨files, hfiles, rfl⟩ := map_eq_some_iff.mp h
    obtain ⟨tuples, htuples, hpaths⟩ := ho.asFileTuples
    cases hfiles.symm.trans htuples
    exact mem_foldl_add.mpr (Or.inr (hpaths ▸ hpath))
  · obtain ⟨files, -, rfl⟩ := map_eq_some_iff.mp h
    exact mem_foldl_add.mpr (Or.inl hpath)

theorem Wf.mergeInplace (hp : p.Wf) (ho : other.Wf) : ∃ r, p.mergeInplace other = some r ∧ r.Wf ∧
      ∀ path, path ∈ r.filePaths ↔ path ∈ p.filePaths ∨ path ∈ other.filePaths := by
  obtain ⟨files, hfiles, hpaths⟩ := ho.asFileTuples
  refine ⟨files.foldl FileSetPayload.add p, ?_, hp.foldl_add, ?_⟩
  · rw [FileSetPayload.mergeInplace, hfiles, map_some]
  · intro path
    rw [mem_foldl_add, hpaths]

theorem Wf.merge (hp : p.Wf) (ho : other.Wf) : ∃ r, p.merge other = some r ∧ r.Wf ∧
      ∀ path, path ∈ r.filePaths ↔ path ∈ p.filePaths ∨ path ∈ other.filePaths := by
  unfold FileSetPayload.merge
  split
  · exact hp.mergeInplace ho
  · obtain ⟨r, hr, hwf, hmem⟩ := ho.mergeInplace hp
    exact ⟨r, hr, hwf, fun path => (hmem path).trans or_comm⟩

theorem Holds.of_mergeInplace (h : r.Holds file) (hp : p.Wf) (hr : p.mergeInplace other = some r) :
    p.Holds file ∨ other.Holds file := by
  obtain ⟨files, hfiles, rfl⟩ := map_eq_some_iff.mp hr
  exact (h.of_foldl_add hp).imp_right fun hmem => ⟨files, hfiles, hmem⟩

theorem Holds.of_merge (h : r.Holds file) (hp : p.Wf) (ho : other.Wf) (hr : p.merge other = some r) :
    p.Holds file ∨ other.Holds file := by
  unfold FileSetPayload.merge at hr
  split at hr
  · exact h.of_mergeInplace hp hr
  · exact (h.of_mergeInplace ho hr).symm

/-! ### Removing -/

variable {indexes' : List Nat}

theorem removeLoop_paths (h : removeLoop toRemove paths sizes indexes = some (paths', sizes', indexes')) :
    paths' = paths.filter (· ∉ toRemove) := by
  fun_induction removeLoop generalizing paths' sizes' indexes' with
  | case1 =>
    cases h
    rfl
  | case2 path paths hmem size sizes index indexes ih =>
    rw [filter_cons_of_neg (by simpa using hmem)]
    exact ih h
  | case3 => cases h
  | case4 path paths sizes indexes hmem ih =>
    rw [filter_cons_of_pos (by simpa using hmem)]
    obtain ⟨⟨ps, ss, is⟩, hrest, heq⟩ := map_eq_some_iff.mp h
    cases heq
    rw [ih hrest]

theorem remove_filePaths (h : p.remove toRemove = some r) : r.filePaths = p.filePaths.filter (· ∉ toRemove) := by
  obtain ⟨⟨paths, sizes, indexes⟩, hloop, rfl⟩ := map_eq_some_iff.mp h
  exact removeLoop_paths hloop

theorem removeLoop_map (toRemove : List String) (entries : List FileEntry) :
    removeLoop toRemove (entries.map (·.path)) (entries.map (·.size)) (entries.map (·.index)) =
      some ((entries.filter (·.path ∉ toRemove)).map (·.path), (entries.filter (·.path ∉ toRemove)).map (·.size),
        (entries.filter (·.path ∉ toRemove)).map (·.index)) := by
  induction entries with
  | nil => rfl
  | cons entry entries ih =>
    simp only [map_cons, removeLoop, tail_cons, ih]
    by_cases hmem : entry.path ∈ toRemove
    · simp [hmem]
    · simp [hmem]

theorem remove_ofEntries (toRemove : List String) : (ofEntries schemas entries).remove toRemove =
    some (ofEntries schemas (entries.filter (·.path ∉ toRemove))) := by
  simp only [remove, ofEntries, removeLoop_map, map_some]

theorem Wf.remove (h : p.Wf) (toRemove : List String) :
    ∃ r, p.remove toRemove = some r ∧ r.Wf ∧ r.filePaths = p.filePaths.filter (· ∉ toRemove) := by
  obtain ⟨entries, hlt, heq⟩ := h.eq_ofEntries
  have hr : p.remove toRemove = some (ofEntries p.schemas (entries.filter (·.path ∉ toRemove))) := by
    rw [← remove_ofEntries, ← heq]
  exact ⟨_, hr, wf_ofEntries fun entry hentry => hlt entry (mem_of_mem_filter hentry), remove_filePaths hr⟩

theorem Holds.of_remove (h : r.Holds file) (hp : p.Wf) (hr : p.remove toRemove = some r) : p.Holds file := by
  obtain ⟨entries, hlt, heq⟩ := hp.eq_ofEntries
  rw [heq, remove_ofEntries] at hr
  cases hr
  rw [holds_ofEntries_iff fun entry hentry => hlt entry (mem_of_mem_filter hentry)] at h
  rw [heq, holds_ofEntries_iff hlt]
  obtain ⟨entry, hentry, hfile⟩ := h
  exact ⟨entry, mem_of_mem_filter hentry, hfile⟩

example : (FileSetPayload.mk ["a", "b"] [.minimal] [0, 0] [1, 2]).remove ["a"] =
    some ⟨["b"], [.minimal], [0], [2]⟩ := by decide

/-! ### One file for each path -/

section

variable (known : String → FileDescriptor)

/-- The set is well formed, and its files are the ones known by their paths. -/
structure Known (p : FileSetPayload) : Prop where
  wf : p.Wf
  known : ∀ file, p.Holds file → file = known file.filePath

variable {known}

theorem known_new : new.Known known := by
  refine ⟨wf_new, fun file h => ?_⟩
  obtain ⟨files, hfiles, hmem⟩ := h
  cases hfiles
  cases hmem

section

variable (h : p.Known known)

include h

theorem Known.holds_iff : p.Holds file ↔ file.filePath ∈ p.filePaths ∧ file = known file.filePath := by
  obtain ⟨files, hfiles, hpaths⟩ := h.wf.asFileTuples
  constructor
  · intro hfile
    refine ⟨?_, h.known file hfile⟩
    obtain ⟨files', hfiles', hmem⟩ := hfile
    cases hfiles.symm.trans hfiles'
    rw [← hpaths]
    exact mem_map_of_mem hmem
  rintro ⟨hpath, hknown⟩
  rw [← hpaths] at hpath
  obtain ⟨held, hheld, hsame⟩ := mem_map.mp hpath
  refine ⟨files, hfiles, ?_⟩
  rw [hknown, ← hsame, ← h.known held ⟨files, hfiles, hheld⟩]
  exact hheld

theorem Known.mergeInplace (hother : other.Known known) (hr : p.mergeInplace other = some r) : r.Known known := by
  obtain ⟨r', hr', hwf, -⟩ := h.wf.mergeInplace hother.wf
  cases hr.symm.trans hr'
  exact ⟨hwf, fun file hfile => (hfile.of_mergeInplace h.wf hr).elim (h.known file) (hother.known file)⟩

theorem Known.merge (hother : other.Known known) (hr : p.merge other = some r) : r.Known known := by
  obtain ⟨r', hr', hwf, -⟩ := h.wf.merge hother.wf
  cases hr.symm.trans hr'
  exact ⟨hwf, fun file hfile => (hfile.of_merge h.wf hother.wf hr).elim (h.known file) (hother.known file)⟩

theorem Known.remove (hr : p.remove toRemove = some r) : r.Known known := by
  obtain ⟨r', hr', hwf, -⟩ := h.wf.remove toRemove
  cases hr.symm.trans hr'
  exact ⟨hwf, fun file hfile => h.known file (hfile.of_remove h.wf hr)⟩

end

end

/-! ### Sets built by the operations -/

/-- A set that was built by the operations, with the files that were inserted on the way. -/
inductive Built : FileSetPayload → List FileDescriptor → Prop
  | new : Built new []
  | single (path : String) (size : Nat) (schema : PowdrrSchema) : Built (single path size schema) [⟨path, schema, size⟩]
  | add {p inserted} (file : FileDescriptor) : Built p inserted →
    Built (p.add file) (if file.filePath ∈ p.filePaths then inserted else file :: inserted)
  | mergeInplace {p other r inserted inserted'} : Built p inserted → Built other inserted' →
    p.mergeInplace other = some r → Built r (inserted ++ inserted')
  | merge {p other r inserted inserted'} : Built p inserted → Built other inserted' →
    p.merge other = some r → Built r (inserted ++ inserted')
  | remove {p r inserted} (toRemove : List String) : Built p inserted → p.remove toRemove = some r → Built r inserted
  | select {p r inserted} (fileName : String) : Built p inserted → p.select fileName = some r → Built r inserted

theorem nodup_add (h : p.filePaths.Nodup) : (p.add file).filePaths.Nodup := by
  unfold FileSetPayload.add
  split
  · exact h
  · rename_i hnew
    have hconcat : (p.filePaths ++ [file.filePath]).Nodup := nodup_append_comm.mp (nodup_cons.mpr ⟨hnew, h⟩)
    split <;> exact hconcat

theorem nodup_foldl_add (h : p.filePaths.Nodup) : (files.foldl FileSetPayload.add p).filePaths.Nodup :=
  foldlRecOn _ _ (motive := fun p : FileSetPayload => p.filePaths.Nodup) h fun _ h _ _ => nodup_add h

theorem nodup_mergeInplace (h : p.filePaths.Nodup) (hr : p.mergeInplace other = some r) : r.filePaths.Nodup := by
  obtain ⟨files, -, rfl⟩ := map_eq_some_iff.mp hr
  exact nodup_foldl_add h

theorem select_eq_some {fileName : String} (hp : p.Wf) (h : p.select fileName = some r) :
    ∃ file, p.Holds file ∧ r = single file.filePath file.size file.schema := by
  obtain ⟨entries, hlt, heq⟩ := hp.eq_ofEntries
  rw [heq] at h ⊢
  simp only [FileSetPayload.select, ofEntries, getElem?_map, Option.bind_eq_bind, Option.bind_eq_some_iff,
    map_eq_some_iff] at h
  obtain ⟨i, -, _, ⟨entry, hentry, rfl⟩, _, ⟨entry', hentry', rfl⟩, _, ⟨entry'', hentry'', rfl⟩, schema, hschema, heq'⟩ := h
  cases hentry.symm.trans hentry'
  cases hentry.symm.trans hentry''
  refine ⟨⟨entry.path, schema, entry.size⟩, (holds_ofEntries_iff hlt).mpr ⟨entry, mem_of_getElem? hentry, ?_⟩,
    (Option.some.inj heq').symm⟩
  rw [FileEntry.descriptor, hschema, map_some]

theorem holds_single {size : Nat} {schema : PowdrrSchema}
    (h : (single path size schema).Holds held) : held = ⟨path, schema, size⟩ := by
  obtain ⟨files, hfiles, hmem⟩ := h
  cases hfiles
  exact mem_singleton.mp hmem

theorem wf_single (path : String) (size : Nat) (schema : PowdrrSchema) : (single path size schema).Wf :=
  ⟨rfl, rfl, by simp [single]⟩

theorem Built.wf {inserted : List FileDescriptor} (h : Built p inserted) :
    p.Wf ∧ p.filePaths.Nodup ∧ ∀ file, p.Holds file → file ∈ inserted := by
  induction h with
  | new => exact ⟨wf_new, nodup_nil, fun file ⟨files, hfiles, hmem⟩ => by cases hfiles; exact hmem⟩
  | single path size schema =>
    exact ⟨wf_single path size schema, nodup_singleton _, fun file h => mem_singleton.mpr (holds_single h)⟩
  | add file _ ih =>
    obtain ⟨hwf, hnodup, hheld⟩ := ih
    refine ⟨hwf.add file, nodup_add hnodup, fun held h => ?_⟩
    rcases h.of_add hwf with h | ⟨rfl, hnew⟩
    · split
      · exact hheld held h
      · exact mem_cons_of_mem _ (hheld held h)
    · rw [if_neg hnew]
      exact mem_cons_self
  | @mergeInplace p other r _ _ _ _ hr ihp iho =>
    obtain ⟨r', hr', hwf, -⟩ := ihp.1.mergeInplace iho.1
    cases hr.symm.trans hr'
    refine ⟨hwf, nodup_mergeInplace ihp.2.1 hr, fun file h => mem_append.mpr ?_⟩
    exact (h.of_mergeInplace ihp.1 hr).imp (ihp.2.2 file) (iho.2.2 file)
  | @merge p other r _ _ _ _ hr ihp iho =>
    obtain ⟨r', hr', hwf, -⟩ := ihp.1.merge iho.1
    cases hr.symm.trans hr'
    refine ⟨hwf, ?_, fun file h => mem_append.mpr ((h.of_merge ihp.1 iho.1 hr).imp (ihp.2.2 file) (iho.2.2 file))⟩
    unfold FileSetPayload.merge at hr
    split at hr
    · exact nodup_mergeInplace ihp.2.1 hr
    · exact nodup_mergeInplace iho.2.1 hr
  | @remove p r _ toRemove _ hr ih =>
    obtain ⟨r', hr', hwf, hpaths⟩ := ih.1.remove toRemove
    cases hr.symm.trans hr'
    exact ⟨hwf, hpaths ▸ ih.2.1.filter _, fun file h => ih.2.2 file (h.of_remove ih.1 hr)⟩
  | select fileName _ hr ih =>
    obtain ⟨file, hfile, rfl⟩ := select_eq_some ih.1 hr
    exact ⟨wf_single _ _ _, nodup_singleton _, fun held h => holds_single h ▸ ih.2.2 file hfile⟩

/-- **File sets.** A set that was built by the operations has arrays that agree, distinct paths, and files as
they were inserted. The union and the difference of such sets are what their names say and keep the files
as they are. -/
theorem built_fileSet {inserted : List FileDescriptor} (h : Built p inserted) :
    (p.Wf ∧ p.filePaths.Nodup ∧ ∀ file, p.Holds file → file ∈ inserted) ∧
    (∀ other inserted', Built other inserted' → ∃ r, p.merge other = some r ∧
      (∀ path, path ∈ r.filePaths ↔ path ∈ p.filePaths ∨ path ∈ other.filePaths) ∧
      ∀ file, r.Holds file → p.Holds file ∨ other.Holds file) ∧
    ∀ toRemove, ∃ r, p.remove toRemove = some r ∧
      (∀ path, path ∈ r.filePaths ↔ path ∈ p.filePaths ∧ path ∉ toRemove) ∧ ∀ file, r.Holds file → p.Holds file := by
  refine ⟨h.wf, fun other inserted' hother => ?_, fun toRemove => ?_⟩
  · obtain ⟨r, hr, -, hpaths⟩ := h.wf.1.merge hother.wf.1
    exact ⟨r, hr, hpaths, fun file hfile => hfile.of_merge h.wf.1 hother.wf.1 hr⟩
  · obtain ⟨r, hr, -, hpaths⟩ := h.wf.1.remove toRemove
    refine ⟨r, hr, fun path => ?_, fun file hfile => hfile.of_remove h.wf.1 hr⟩
    rw [hpaths, mem_filter, decide_eq_true_eq]

theorem built_fileSet_single : (single "a" 1 .minimal).Wf ∧
    ∃ r, (single "a" 1 .minimal).merge (single "b" 2 .minimal) = some r ∧
      ∀ path, path ∈ r.filePaths ↔ path = "a" ∨ path = "b" := by
  have h := built_fileSet (.single "a" 1 .minimal)
  obtain ⟨r, hr, hpaths, -⟩ := h.2.1 _ _ (.single "b" 2 .minimal)
  exact ⟨h.1.1, r, hr, fun path => (hpaths path).trans (by simp [single])⟩

/-! ### The work of the peers -/

section

variable (hash : String → Nat)

/-- `as_selected_tuples`: the files of one of `num` peers. The remainder by zero stops the source. -/
def asSelectedTuples (p : FileSetPayload) (index num : Nat) : Option (List FileDescriptor) :=
  p.asFileTuples.bind fun files =>
    if num = 0 ∧ files ≠ [] then none else some (files.filter fun file => hash file.filePath % num = index)

/-- The files that each peer of `call_peers` is asked for. -/
def peerTuples (p : FileSetPayload) (num : Nat) : Option (List (List FileDescriptor)) :=
  (List.range num).mapM fun index => p.asSelectedTuples hash index num

theorem flatMap_filter_perm (f : FileDescriptor → Nat) (files : List FileDescriptor) (n : Nat) :
    ((List.range n).flatMap fun i => files.filter fun file => f file = i).Perm (files.filter fun file => f file < n) := by
  induction n with
  | zero => simp
  | succ n ih =>
    rw [range_succ, flatMap_append, flatMap_singleton]
    have hsplit := filter_append_perm (fun file => decide (f file < n)) (files.filter fun file => f file < n + 1)
    rw [filter_filter, filter_filter] at hsplit
    refine (ih.append_right _).trans (List.Perm.trans (.of_eq ?_) hsplit)
    congr 1 <;> refine filter_congr fun file _ => Bool.eq_iff_iff.mpr ?_
    · simp only [decide_eq_true_eq, Bool.and_eq_true]
      omega
    · simp only [decide_eq_true_eq, Bool.and_eq_true, Bool.not_eq_true', decide_eq_false_iff_not]
      omega

/-- **The work of the peers.** Each file of a set is asked of exactly one of them, unless there is none. -/
theorem peerTuples_partition_iff (num : Nat) (h : p.asFileTuples = some files) :
    (∃ parts, p.peerTuples hash num = some parts ∧ parts.Pairwise List.Disjoint ∧ parts.flatten.Perm files) ↔
      num ≠ 0 ∨ files = [] := by
  constructor
  · rintro ⟨parts, hparts, -, hperm⟩
    refine or_iff_not_imp_left.mpr fun hzero => ?_
    obtain rfl := not_not.mp hzero
    cases hparts
    exact hperm.nil_eq.symm
  intro hsome
  have htuples : ∀ index, p.asSelectedTuples hash index num =
      some (files.filter fun file => hash file.filePath % num = index) := by
    intro index
    rw [asSelectedTuples, h, Option.bind_some, if_neg fun hnone => hsome.elim (· hnone.1) hnone.2]
  refine ⟨(List.range num).map fun index => files.filter fun file => hash file.filePath % num = index, ?_, ?_, ?_⟩
  · rw [peerTuples, funext htuples]
    exact mapM_pure
  · refine pairwise_map.mpr (nodup_range.imp fun hne file hleft hright => hne ?_)
    have hi := of_decide_eq_true (mem_filter.mp hleft).2
    have hj := of_decide_eq_true (mem_filter.mp hright).2
    exact hi.symm.trans hj
  rw [← flatMap_def]
  refine (flatMap_filter_perm (fun file => hash file.filePath % num) files num).trans (.of_eq ?_)
  rcases hsome with hne | rfl
  · exact filter_eq_self.mpr fun file _ => decide_eq_true (Nat.mod_lt _ (Nat.pos_of_ne_zero hne))
  · rfl

/-- Four files of two schemas for two peers, which get two of them each. -/
theorem peerTuples_partition_two :
    let set : FileSetPayload := ⟨["a", "bb", "cc", "ddd"], [.minimal, ⟨[⟨"n", .integer⟩]⟩], [0, 1, 0, 1], [7, 5, 3, 1]⟩
    (∃ parts, set.peerTuples String.length 2 = some parts ∧ parts.Pairwise List.Disjoint ∧
      parts.flatten.Perm [⟨"a", .minimal, 7⟩, ⟨"bb", ⟨[⟨"n", .integer⟩]⟩, 5⟩, ⟨"cc", .minimal, 3⟩,
        ⟨"ddd", ⟨[⟨"n", .integer⟩]⟩, 1⟩]) ∧
    (set.peerTuples String.length 2).map (fun parts => parts.map fun part => part.map FileDescriptor.filePath) =
      some [["bb", "cc"], ["a", "ddd"]] :=
  ⟨(peerTuples_partition_iff String.length 2 rfl).mpr (Or.inl (by decide)), by decide +kernel⟩

/-- Without peers a file is asked of none. -/
theorem peerTuples_no_peers : ∃ parts, (single "a" 1 .minimal).peerTuples String.length 0 = some parts ∧
    ¬ parts.flatten.Perm [⟨"a", .minimal, 1⟩] :=
  ⟨[], rfl, fun h => nomatch h.nil_eq⟩

end

end FileSetPayload

end PowdrrEngine
