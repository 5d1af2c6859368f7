import PowdrrEngine.ContractSchemaMerge
import PowdrrEngine.IngestBuffer

/-! Building the buffers of a commit. Every record gets a line with its number and keeps it; the lines are
then brought to one set of columns, with nulls where a record does not have a column. New records with
plain documents are built exactly if no column of two documents has two types. -/

namespace PowdrrEngine

open List Lists SpeedboatCommitBuilder PowdrrSchema
open Option (map_eq_some_iff isSome_map isSome_iff_exists bind_eq_some_iff)

/-! ### Documents and their columns -/

namespace Value

/-- The columns that every record has. -/
def ownColumns : List String := ["_id", "_seq_no", "_id_seq_no", "_version", "_source"]

def unreserved (doc : Value) : Bool :=
  doc.createDenormalizedValue.all fun columns => columns.all fun c => c.1 ∉ ownColumns

def isObject (doc : Value) : Bool := doc.createDenormalizedValue.isSome

/-- The cells of a document under the names of their columns. -/
def cells (doc : Value) : List (String × Column) :=
  (doc.createDenormalizedValue.getD []).map fun c => (c.1, .cell c.2)

/-- The columns of a document with their types; of two cells with one name the later one counts. -/
def columnSchema (doc : Value) : PowdrrSchema := Record.extractPowdrrSchema (Dict.insertAll ∅ doc.cells)

variable {doc : Value} {name : String}

theorem notMem_cells (hown : doc.unreserved = true) (hname : name ∈ ownColumns) : name ∉ doc.cells.map Prod.fst := by
  intro hmem
  rw [cells, map_map] at hmem
  obtain ⟨c, hc, rfl⟩ := mem_map.mp hmem
  rw [unreserved] at hown
  cases hcolumns : doc.createDenormalizedValue with
  | none =>
    rw [hcolumns] at hc
    cases hc
  | some columns =>
    rw [hcolumns, Option.getD_some] at hc
    rw [hcolumns, Option.all_some, all_eq_true] at hown
    exact of_decide_eq_true (hown c hc) hname

end Value

/-! ### Padded records -/

namespace Record

variable {r line line' : Record} {schema : PowdrrSchema} {name : String}

/-- The line has what the record has, and nulls in columns that the record does not have. -/
def Pads (line r : Record) : Prop :=
  ∀ name, line.lookup name = r.lookup name ∨ r.lookup name = none ∧ line.lookup name = some (.cell .null)

theorem Pads.trans (h : line'.Pads line) (h' : line.Pads r) : line'.Pads r := by
  intro name
  rcases h' name with heq | ⟨hnone, hnull⟩
  · rw [← heq]
    exact h name
  · rcases h name with heq | ⟨hnone', -⟩
    · exact Or.inr ⟨hnone, heq.trans hnull⟩
    · cases hnone'.symm.trans hnull

theorem Pads.text (h : line.Pads r) (name : String) : line.text name = r.text name := by
  rcases h name with heq | ⟨hnone, hnull⟩
  · rw [Record.text, Record.text, heq]
  · rw [Record.text, Record.text, hnone, hnull]

theorem Pads.nat (h : line.Pads r) (name : String) : line.nat name = r.nat name := by
  rcases h name with heq | ⟨hnone, hnull⟩
  · rw [Record.nat, Record.nat, heq]
  · rw [Record.nat, Record.nat, hnone, hnull]

theorem Pads.document (h : line.Pads r) : line.document = r.document := by
  rcases h "_source" with heq | ⟨hnone, hnull⟩
  · rw [Record.document, Record.document, heq]
  · rw [Record.document, Record.document, hnone, hnull]

theorem lookup_coerceValue (schema : PowdrrSchema) (r : Record) (name : String) :
    (r.coerceValue schema).lookup name =
      (r.lookup name).or (if name ∈ schema.names then some (.cell .null) else none) := by
  obtain ⟨fields⟩ := schema
  unfold coerceValue names
  induction fields generalizing r with
  | nil => simp
  | cons field fields ih =>
    rw [foldl_cons, ih]
    by_cases hname : name = field.name
    · subst hname
      cases hfield : r.lookup field.name with
      | some column => simp [hfield]
      | none => simp
    · cases r.lookup field.name with
      | some column => simp [hname]
      | none => simp [hname]

theorem pads_coerceValue (schema : PowdrrSchema) (r : Record) : (r.coerceValue schema).Pads r := by
  intro name
  rw [lookup_coerceValue]
  cases r.lookup name with
  | some column => exact Or.inl rfl
  | none => by_cases hname : name ∈ schema.names <;> simp [hname]

theorem coerceValue_of_names (h : ∀ name ∈ schema.names, name ∈ r) : r.coerceValue schema = r := by
  obtain ⟨fields⟩ := schema
  unfold coerceValue
  induction fields with
  | nil => rfl
  | cons field fields ih =>
    obtain ⟨column, hcolumn⟩ := isSome_iff_exists.mp (AList.lookup_isSome.mpr (h field.name mem_cons_self))
    rw [foldl_cons, hcolumn]
    exact ih fun name hname => h name (mem_cons_of_mem _ hname)

theorem names_extractPowdrrSchema (r : Record) : r.extractPowdrrSchema.names = r.keys := by
  simp [extractPowdrrSchema, names, AList.keys, List.keys, Function.comp_def]

theorem nodup_extractPowdrrSchema (r : Record) : r.extractPowdrrSchema.names.Nodup := by
  rw [names_extractPowdrrSchema]
  exact r.nodupKeys

theorem typeAt_extractPowdrrSchema (r : Record) (name : String) :
    typeAt r.extractPowdrrSchema.fields name = (r.lookup name).map Column.dataType := by
  refine Option.ext fun t => ?_
  rw [typeAt_eq_some r.nodup_extractPowdrrSchema, map_eq_some_iff]
  constructor
  · intro h
    obtain ⟨⟨key, column⟩, hmem, heq⟩ := mem_map.mp h
    cases heq
    exact ⟨column, Dict.lookup_eq_some_iff.mpr hmem, rfl⟩
  · rintro ⟨column, hcolumn, rfl⟩
    exact mem_map.mpr ⟨_, Dict.lookup_eq_some_iff.mp hcolumn, rfl⟩

theorem flat_extractPowdrrSchema (r : Record) : r.extractPowdrrSchema.Flat := by
  refine ⟨r.nodup_extractPowdrrSchema, fun name t ht => ?_⟩
  rw [typeAt_extractPowdrrSchema] at ht
  obtain ⟨column, -, rfl⟩ := map_eq_some_iff.mp ht
  unfold Column.dataType
  split <;> try rfl
  split <;> rfl

/-- All lines have the same columns. -/
def Uniform (lines : List Record) : Prop := ∀ line ∈ lines, ∀ other ∈ lines, ∀ name ∈ line, name ∈ other

end Record

open Record

namespace RecordInput

variable {records records' : List RecordInput} {lines : List Record}

theorem map_extractPowdrrSchemaOption (h : records.map (·.existingNormalized) = lines.map some) :
    records.map (fun r => extractPowdrrSchemaOption r.existingNormalized) = lines.map extractPowdrrSchema := by
  have hmap := congrArg (map extractPowdrrSchemaOption) h
  rwa [map_map, map_map] at hmap

/-- Lines that are coerced together get the same columns, and stay as they are if they have them. -/
theorem coerceAll_spec (hlines : records.map (·.existingNormalized) = lines.map some)
    (h : coerceAll records = some records') : ∃ merged, records' = records.map (coerce merged) ∧
      Uniform (lines.map (coerceValue merged)) ∧ (Uniform lines → lines.map (coerceValue merged) = lines) := by
  unfold coerceAll at h
  split at h
  · rename_i hempty
    have hnil := List.isEmpty_iff.mp hempty
    subst hnil
    cases map_eq_nil_iff.mp hlines.symm
    cases h
    exact ⟨.minimal, rfl, nofun, fun _ => rfl⟩
  obtain ⟨merged, hmerged, rfl⟩ := map_eq_some_iff.mp h
  rw [map_extractPowdrrSchemaOption hlines] at hmerged
  have hmerge : MergeOf (lines.map extractPowdrrSchema) merged :=
    mergeOf_mergeAll (forall_mem_map.mpr fun line _ => line.flat_extractPowdrrSchema.nodup) hmerged
  have hnames : ∀ name, name ∈ merged.names ↔ ∃ line ∈ lines, name ∈ line := by
    intro name
    simp only [hmerge.mem_names, mem_map, exists_exists_and_eq_and, names_extractPowdrrSchema, AList.mem_keys]
  refine ⟨merged, rfl, ?_, fun huniform => ?_⟩
  · rintro _ hline _ hother name hname
    obtain ⟨line, hmemLine, rfl⟩ := mem_map.mp hline
    obtain ⟨other, -, rfl⟩ := mem_map.mp hother
    have hmem : name ∈ merged.names := by
      rw [← AList.lookup_isSome, lookup_coerceValue] at hname
      by_contra hnot
      rw [if_neg hnot, Option.or_none, AList.lookup_isSome] at hname
      exact hnot ((hnames name).mpr ⟨line, hmemLine, hname⟩)
    rw [← AList.lookup_isSome, lookup_coerceValue, if_pos hmem, Option.isSome_or, Option.isSome_some, Bool.or_true]
  · refine (map_congr_left fun line hline => coerceValue_of_names fun name hname => ?_).trans (map_id _)
    obtain ⟨other, hother, hmem⟩ := (hnames name).mp hname
    exact huniform other hother line hline name hmem

end RecordInput

/-! ### Building the buffers -/

namespace SpeedboatCommitBuilder

variable {b : SpeedboatCommitBuilder} {lastSeqNo : Nat} {built : Built}

def changes (b : SpeedboatCommitBuilder) : Nat :=
  b.insertRecords.length + b.updateRecords.length + b.deleteRecords.length

/-- No record of the builder was written before. -/
def Unwritten (b : SpeedboatCommitBuilder) : Prop := ∀ r ∈ b.records, r.existingNormalized = none

def numbered (b : SpeedboatCommitBuilder) (lastSeqNo : Nat) : List (RecordInput × Nat) :=
  b.records.zip (reportTableChanges lastSeqNo b.changes).1

theorem length_records_le : b.records.length ≤ b.changes := by
  rw [records, length_append, changes]
  omega

theorem map_fst_numbered (b : SpeedboatCommitBuilder) (lastSeqNo : Nat) :
    (b.numbered lastSeqNo).map Prod.fst = b.records := by
  refine map_fst_zip ?_
  rw [reportTableChanges, length_map, length_range]
  exact length_records_le

theorem of_mem_numbered {p : RecordInput × Nat} (h : p ∈ b.numbered lastSeqNo) :
    p.1 ∈ b.records ∧ lastSeqNo < p.2 ∧ p.2 ≤ lastSeqNo + b.changes := by
  obtain ⟨hr, hn⟩ := of_mem_zip (by exact h : (p.1, p.2) ∈ _)
  obtain ⟨i, hi, hn⟩ := mem_map.mp hn
  have hlt := mem_range.mp hi
  exact ⟨hr, by omega, by omega⟩

theorem buildBuffers_eq (b : SpeedboatCommitBuilder) (lastSeqNo : Nat) : b.buildBuffers lastSeqNo =
      ((b.numbered lastSeqNo).mapM fun p : RecordInput × Nat => p.1.ensureNormalizedValue p.2).bind fun records =>
        (RecordInput.coerceAll records).bind fun records =>
          (records.mapM RecordInput.existingNormalized).bind fun lines => some {
            lines
            lastSeqNo := lastSeqNo + b.changes
            deletes := b.deleteRecords.map (·.asValue)
            builder := { b with
              insertRecords := records.take b.insertRecords.length
              updateRecords := records.drop b.insertRecords.length } } := rfl

/-- A record after the buffers were built: it has the line it had, or the one of its number, padded. -/
inductive Written (r : RecordInput) (seqNo : Nat) (r' : RecordInput) : Prop where
  | before (line line' : Record) (h : r.existingNormalized = some line) (hpads : line'.Pads line)
      (hr' : r' = { r with existingNormalized := some line' })
  | now (line line' : Record) (h : r.existingNormalized = none) (hline : r.normalized seqNo = some line)
      (hpads : line'.Pads line) (hr' : r' = { r with existingNormalized := some line' })

structure BuiltSpec (b : SpeedboatCommitBuilder) (lastSeqNo : Nat) (built : Built) : Prop where
  records : List.Forall₂ (fun p r' => Written p.1 p.2 r') (b.numbered lastSeqNo) built.builder.records
  lines : built.builder.records.map (·.existingNormalized) = built.lines.map some
  uniform : Uniform built.lines
  again : ∀ lines, b.records.map (·.existingNormalized) = lines.map some → Uniform lines → built.lines = lines
  inserts : built.builder.insertRecords.length = b.insertRecords.length
  deletes : built.deletes = b.deleteRecords.map (·.asValue)
  lastSeqNo : built.lastSeqNo = lastSeqNo + b.changes

theorem exists_line {r r' : RecordInput} {seqNo : Nat} (h : r.ensureNormalizedValue seqNo = some r') :
    ∃ line, r'.existingNormalized = some line ∧ (r.existingNormalized = some line ∨
      r.existingNormalized = none ∧ r.normalized seqNo = some line) ∧ r' = { r with existingNormalized := some line } := by
  unfold RecordInput.ensureNormalizedValue at h
  cases hexisting : r.existingNormalized with
  | some line =>
    rw [hexisting] at h
    cases h
    exact ⟨line, hexisting, Or.inl rfl, by rw [← hexisting]⟩
  | none =>
    rw [hexisting] at h
    obtain ⟨line, hline, rfl⟩ := map_eq_some_iff.mp h
    exact ⟨line, rfl, Or.inr ⟨rfl, hline⟩, rfl⟩

theorem buildBuffers_spec (h : b.buildBuffers lastSeqNo = some built) : BuiltSpec b lastSeqNo built := by
  rw [buildBuffers_eq] at h
  obtain ⟨normalized, hnormalized, h⟩ := bind_eq_some_iff.mp h
  obtain ⟨records, hrecords, h⟩ := bind_eq_some_iff.mp h
  obtain ⟨lines, hlines, h⟩ := bind_eq_some_iff.mp h
  cases h
  have hensured := forall₂_of_mapM hnormalized
  -- The lines before they are padded.
  have hbefore : normalized.map (·.existingNormalized) =
      (normalized.map fun r => r.existingNormalized.getD ∅).map some := by
    rw [map_map]
    refine map_congr_left fun r' hr' => ?_
    obtain ⟨p, -, hp⟩ := exists_mem_of_forall₂ hensured hr'
    obtain ⟨line, hline, -⟩ := exists_line hp
    simp [hline]
  obtain ⟨merged, rfl, huniform, hsame⟩ := RecordInput.coerceAll_spec hbefore hrecords
  have hpadded : (normalized.map (RecordInput.coerce merged)).map (·.existingNormalized) =
      ((normalized.map fun r => r.existingNormalized.getD ∅).map (coerceValue merged)).map some := by
    have hmap := congrArg (map (Option.map (coerceValue merged))) hbefore
    rw [map_map, map_map] at hmap ⊢
    exact hmap
  have hline : (normalized.map fun r => r.existingNormalized.getD ∅).map (coerceValue merged) = lines := by
    refine map_injective_iff.mpr (Option.some_injective _) (hpadded.symm.trans ?_)
    exact map_eq_map_of_forall₂ (forall₂_of_mapM hlines)
  have hlength : normalized.length = b.records.length := by
    rw [← hensured.length_eq, ← map_fst_numbered b lastSeqNo, length_map]
  have htake : ∀ records : List RecordInput, SpeedboatCommitBuilder.records { b with
      insertRecords := records.take b.insertRecords.length
      updateRecords := records.drop b.insertRecords.length } = records := fun records => take_append_drop _ _
  refine ⟨?_, ?_, hline ▸ huniform, fun lines' hlines' huniform' => ?_, ?_, rfl, rfl⟩
  · rw [htake, forall₂_map_right_iff]
    refine hensured.imp fun p r' hp => ?_
    obtain ⟨line, hexisting, hfrom | ⟨hnone, hnow⟩, hr'⟩ := exists_line hp
    · exact .before line _ hfrom (pads_coerceValue merged line) (by rw [RecordInput.coerce, hexisting, hr']; rfl)
    · exact .now line _ hnone hnow (pads_coerceValue merged line) (by rw [RecordInput.coerce, hexisting, hr']; rfl)
  · rw [htake, hpadded, hline]
  · -- Records that have their lines keep them.
    have hkept : normalized = b.records := by
      rw [← map_fst_numbered b lastSeqNo, ← map_id normalized]
      refine (map_eq_map_of_forall₂ ((forall₂_mem hensured).imp fun p r' hp => ?_)).symm
      have hmem : p.1.existingNormalized ∈ lines'.map some := hlines' ▸ mem_map_of_mem (of_mem_numbered hp.1).1
      obtain ⟨line, -, hexisting⟩ := mem_map.mp hmem
      have hensure := hp.2
      rw [RecordInput.ensureNormalizedValue, ← hexisting] at hensure
      exact Option.some.inj hensure
    have hlines'' : (normalized.map fun r => r.existingNormalized.getD ∅) = lines' := by
      refine map_injective_iff.mpr (Option.some_injective _) (hbefore.symm.trans ?_)
      rw [hkept, hlines']
    rw [← hline, hlines'']
    exact hlines'' ▸ hsame (hlines''.symm ▸ huniform')
  · rw [length_take, length_map, hlength, SpeedboatCommitBuilder.records, length_append]
    omega

end SpeedboatCommitBuilder

/-! ### New records -/

/-- What the columns of the engine hold for a stored document. -/
structure Record.Reads (r : Record) (row : FullRecord) : Prop where
  id : r.text "_id" = some row.id
  seqNo : r.nat "_seq_no" = some row.seqNo
  key : r.text "_id_seq_no" = some (idSeqNo row.id row.seqNo)
  version : r.nat "_version" = some row.version
  document : r.document = some row.source

section

variable {row : FullRecord} {line : Record} {r : RecordInput} {seqNo : Nat} {columns : Record}

theorem Record.Reads.fromRecord (h : line.Reads row) : FullRecord.fromRecord line = some row := by
  simp [FullRecord.fromRecord, h.seqNo, h.id, h.version, h.document]

theorem Record.Reads.pads {r : Record} (h : r.Reads row) (hline : line.Pads r) : line.Reads row :=
  ⟨hline.text _ ▸ h.id, hline.nat _ ▸ h.seqNo, hline.text _ ▸ h.key, hline.nat _ ▸ h.version,
    hline.document ▸ h.document⟩

namespace RecordInput

/-- The cells that the engine assigns to a record. -/
def ownCells (r : RecordInput) (seqNo : Nat) : List (String × Column) :=
  [("_id", .cell (.string r.id)), ("_seq_no", .cell (.int seqNo)),
    ("_id_seq_no", .cell (.string (idSeqNo r.id seqNo))), ("_version", .cell (.int r.version)),
    ("_source", .sourceText r.source)]

theorem normalized_eq_some (h : r.normalized seqNo = some columns) :
    r.source.isObject = true ∧ columns = Dict.insertAll ∅ (r.ownCells seqNo ++ r.source.cells) := by
  obtain ⟨leaves, hleaves, rfl⟩ := map_eq_some_iff.mp h
  refine ⟨by rw [Value.isObject, hleaves]; rfl, ?_⟩
  rw [Value.cells, hleaves]
  rfl

theorem exists_normalized (r : RecordInput) (seqNo : Nat) (h : r.source.isObject = true) :
    ∃ columns, r.normalized seqNo = some columns := by
  obtain ⟨leaves, hleaves⟩ := isSome_iff_exists.mp h
  exact ⟨_, by rw [normalized, hleaves]; rfl⟩

theorem normalized_reads (h : r.normalized seqNo = some columns) (hown : r.source.unreserved = true) :
    columns.Reads ⟨r.id, r.version, r.source, seqNo⟩ := by
  obtain ⟨-, rfl⟩ := normalized_eq_some h
  refine ⟨?_, ?_, ?_, ?_, ?_⟩
  all_goals
    simp only [Record.text, Record.nat, Record.document]
    rw [Dict.lookup_insertAll_append (Value.notMem_cells hown (by decide))]
    rfl

/-- The types of the engine's own columns. -/
def ownTypes : List (String × PowdrrDataType) :=
  [("_id", .string), ("_seq_no", .integer), ("_id_seq_no", .string), ("_version", .integer), ("_source", .string)]

theorem typeAt_normalized (h : r.normalized seqNo = some columns) (hown : r.source.unreserved = true)
    (hseqNo : seqNo < 2 ^ 63) (hversion : r.version < 2 ^ 63) (name : String) :
    typeAt columns.extractPowdrrSchema.fields name =
      (ownTypes.lookup name).or (typeAt r.source.columnSchema.fields name) := by
  obtain ⟨-, rfl⟩ := normalized_eq_some h
  rw [typeAt_extractPowdrrSchema, Value.columnSchema, typeAt_extractPowdrrSchema]
  have hnodup : ((r.ownCells seqNo).map Prod.fst).Nodup := (by decide : Value.ownColumns.Nodup)
  have htypes : ((r.ownCells seqNo).lookup name).map Column.dataType = ownTypes.lookup name := by
    have hint : ∀ n : Nat, n < 2 ^ 63 → (Column.cell (.int n)).dataType = .integer := fun n hn => if_pos hn
    simp only [ownCells, ownTypes, lookup_cons]
    repeat' split
    all_goals first | rfl | exact congrArg some (hint _ hseqNo) | exact congrArg some (hint _ hversion)
  by_cases hname : name ∈ Value.ownColumns
  · have hsome : (ownTypes.lookup name).isSome = true := by
      simp only [Value.ownColumns, mem_cons, not_mem_nil, or_false] at hname
      rcases hname with rfl | rfl | rfl | rfl | rfl <;> decide
    obtain ⟨t, ht⟩ := isSome_iff_exists.mp hsome
    rw [Dict.lookup_insertAll_append (Value.notMem_cells hown hname), Dict.lookup_insertAll_empty hnodup, htypes, ht]
    rfl
  · have hnone : (r.ownCells seqNo).lookup name = none := Dict.lookup_eq_none_of_notMem hname
    rw [hnone, Option.map_none] at htypes
    rw [← htypes, Option.none_or, Dict.lookup_insertAll_skip hname]

end RecordInput

end

namespace SpeedboatCommitBuilder

variable {b : SpeedboatCommitBuilder} {lastSeqNo : Nat} {built : Built}

/-- The documents of the records have no column in two types. -/
def SameTypes (docs : List Value) : Prop := PowdrrSchema.Agree (docs.map Value.columnSchema)

def rows (b : SpeedboatCommitBuilder) (lastSeqNo : Nat) : List FullRecord :=
  (b.numbered lastSeqNo).map fun (r, seqNo) => ⟨r.id, r.version, r.source, seqNo⟩

theorem BuiltSpec.reads (h : BuiltSpec b lastSeqNo built) (hb : b.Unwritten)
    (hown : ∀ r ∈ b.records, r.source.unreserved = true) :
    List.Forall₂ Record.Reads built.lines (b.rows lastSeqNo) := by
  have hlines : List.Forall₂ (fun p line => ∀ columns, line = some columns →
      columns.Reads ⟨p.1.id, p.1.version, p.1.source, p.2⟩) (b.numbered lastSeqNo)
        (built.builder.records.map (·.existingNormalized)) := by
    rw [forall₂_map_right_iff]
    refine (forall₂_mem h.records).imp fun p r' hp columns hcolumns => ?_
    have hr := (of_mem_numbered hp.1).1
    cases hp.2 with
    | before line line' hline =>
      rw [hb p.1 hr] at hline
      cases hline
    | now line line' _ hline hpads hr' =>
      rw [hr'] at hcolumns
      cases hcolumns
      exact (RecordInput.normalized_reads hline (hown p.1 hr)).pads hpads
  rw [h.lines, forall₂_map_right_iff] at hlines
  rw [rows, forall₂_map_right_iff]
  exact (hlines.imp fun p line hline => hline line rfl).flip

theorem seqNo_of_mem_rows {row : FullRecord} (h : row ∈ b.rows lastSeqNo) :
    lastSeqNo < row.seqNo ∧ row.seqNo ≤ lastSeqNo + b.changes := by
  obtain ⟨p, hp, rfl⟩ := mem_map.mp h
  exact (of_mem_numbered hp).2

theorem rows_descending (b : SpeedboatCommitBuilder) (lastSeqNo : Nat) :
    (b.rows lastSeqNo).Pairwise fun row older => older.seqNo < row.seqNo := by
  rw [pairwise_iff_getElem]
  intro i j hi hj hij
  rw [rows, length_map, numbered, length_zip] at hj
  simp only [rows, numbered, getElem_map, getElem_zip, reportTableChanges, getElem_range]
  have hlength := length_records_le (b := b)
  omega

theorem sources_rows (b : SpeedboatCommitBuilder) (lastSeqNo : Nat) (id : String) :
    ((b.rows lastSeqNo).filter fun row => row.id = id).map (·.source) =
      (b.records.filter fun r => r.id = id).map (·.source) := by
  conv_rhs => rw [← map_fst_numbered b lastSeqNo]
  rw [rows, filter_map, filter_map, map_map, map_map]
  rfl

/-- The records with their lines before these are padded. -/
def lined (b : SpeedboatCommitBuilder) (lastSeqNo : Nat) : List RecordInput :=
  (b.numbered lastSeqNo).map fun p => { p.1 with existingNormalized := some ((p.1.normalized p.2).getD ∅) }

theorem Unwritten.ensureNormalizedValue (h : b.Unwritten) {r : RecordInput} (hr : r ∈ b.records)
    (seqNo : Nat) : r.ensureNormalizedValue seqNo =
      (r.normalized seqNo).map fun columns => { r with existingNormalized := some columns } := by
  rw [RecordInput.ensureNormalizedValue, h r hr]

theorem Unwritten.mapM_numbered (hb : b.Unwritten) (hobjects : ∀ r ∈ b.records, r.source.isObject = true) :
    ((b.numbered lastSeqNo).mapM fun p : RecordInput × Nat => p.1.ensureNormalizedValue p.2) = some (b.lined lastSeqNo) := by
  refine mapM_eq_map fun p hp => ?_
  have hr := (of_mem_numbered hp).1
  obtain ⟨columns, hcolumns⟩ := p.1.exists_normalized p.2 (hobjects p.1 hr)
  rw [hb.ensureNormalizedValue hr, hcolumns]
  rfl

theorem isSome_coerceAll_lined
    (hplain : ∀ r ∈ b.records, r.source.isObject = true ∧ r.source.unreserved = true)
    (hversions : ∀ r ∈ b.records, r.version < 2 ^ 63) (hroom : lastSeqNo + b.changes < 2 ^ 63) :
    (RecordInput.coerceAll (b.lined lastSeqNo)).isSome = true ↔ SameTypes (b.records.map (·.source)) := by
  let line : RecordInput × Nat → Record := fun p => (p.1.normalized p.2).getD ∅
  have hschemas : (b.lined lastSeqNo).map (fun r => extractPowdrrSchemaOption r.existingNormalized) =
      (b.numbered lastSeqNo).map fun p => (line p).extractPowdrrSchema := by
    rw [lined, map_map]
    rfl
  have htypes : ∀ p ∈ b.numbered lastSeqNo, ∀ name, typeAt (line p).extractPowdrrSchema.fields name =
      (RecordInput.ownTypes.lookup name).or (typeAt p.1.source.columnSchema.fields name) := by
    intro p hp name
    obtain ⟨hr, -, hle⟩ := of_mem_numbered hp
    obtain ⟨columns, hcolumns⟩ := p.1.exists_normalized p.2 (hplain p.1 hr).1
    have hline : line p = columns := by simp only [line, hcolumns, Option.getD_some]
    rw [hline]
    exact RecordInput.typeAt_normalized hcolumns (hplain p.1 hr).2 (by omega) (hversions p.1 hr) name
  have hown : ∀ p ∈ b.numbered lastSeqNo, ∀ name, (RecordInput.ownTypes.lookup name).isSome = true →
      typeAt p.1.source.columnSchema.fields name = none := by
    intro p hp name hname
    have hmem : name ∈ Value.ownColumns := by
      by_contra hnot
      rw [Dict.lookup_eq_none_of_notMem hnot] at hname
      cases hname
    have hnot := Value.notMem_cells (hplain p.1 (of_mem_numbered hp).1).2 hmem
    rw [Value.columnSchema, typeAt_extractPowdrrSchema]
    refine Option.map_eq_none_iff.mpr ?_
    exact (Dict.lookup_insertAll_append (l := []) hnot).trans (AList.lookup_empty name)
  have hagree : SameTypes (b.records.map (·.source)) ↔
      Agree ((b.numbered lastSeqNo).map fun p => (line p).extractPowdrrSchema) := by
    rw [agree_map_iff htypes hown, SameTypes, ← map_fst_numbered b lastSeqNo, map_map, map_map]
    rfl
  rw [hagree, RecordInput.coerceAll, hschemas]
  split
  · rename_i hempty
    rw [List.isEmpty_iff, lined, map_eq_nil_iff] at hempty
    rw [hempty]
    exact ⟨fun _ => nofun, fun _ => rfl⟩
  · rename_i hne
    rw [isSome_map, isSome_mergeAll]
    · rw [Ne, map_eq_nil_iff]
      intro hnil
      rw [lined, hnil] at hne
      exact hne rfl
    · exact forall_mem_map.mpr fun p _ => (line p).flat_extractPowdrrSchema

/-- **New records are built exactly if their documents agree on the types of their columns.** -/
theorem Unwritten.isSome_buildBuffers (hb : b.Unwritten)
    (hplain : ∀ r ∈ b.records, r.source.isObject = true ∧ r.source.unreserved = true)
    (hversions : ∀ r ∈ b.records, r.version < 2 ^ 63) (hroom : lastSeqNo + b.changes < 2 ^ 63) :
    (b.buildBuffers lastSeqNo).isSome = true ↔ SameTypes (b.records.map (·.source)) := by
  rw [buildBuffers_eq, hb.mapM_numbered fun r hr => (hplain r hr).1, Option.bind_some,
    ← isSome_coerceAll_lined hplain hversions hroom]
  cases hcoerced : RecordInput.coerceAll (b.lined lastSeqNo) with
  | none => rfl
  | some records =>
    have hlines : (b.lined lastSeqNo).map (·.existingNormalized) =
        ((b.numbered lastSeqNo).map fun p => (p.1.normalized p.2).getD ∅).map some := by
      rw [lined, map_map, map_map]
      rfl
    obtain ⟨merged, rfl, -⟩ := RecordInput.coerceAll_spec hlines hcoerced
    have hall : (((b.lined lastSeqNo).map (RecordInput.coerce merged)).mapM RecordInput.existingNormalized).isSome := by
      rw [isSome_mapM, forall_mem_map, lined, forall_mem_map]
      exact fun _ _ => rfl
    obtain ⟨lines, hlines⟩ := isSome_iff_exists.mp hall
    rw [Option.bind_some, hlines]
    rfl

theorem Unwritten.buildBuffers_eq_none (hb : b.Unwritten) (h : ∃ r ∈ b.records, r.source.isObject = false) :
    b.buildBuffers lastSeqNo = none := by
  obtain ⟨r, hr, hobject⟩ := h
  rw [← map_fst_numbered b lastSeqNo] at hr
  obtain ⟨p, hp, rfl⟩ := mem_map.mp hr
  have hnone : p.1.ensureNormalizedValue p.2 = none := by
    rw [hb.ensureNormalizedValue (of_mem_numbered hp).1, RecordInput.normalized,
      Option.not_isSome_iff_eq_none.mp (Bool.eq_false_iff.mp hobject)]
    rfl
  rw [buildBuffers_eq, mapM_eq_none hp hnone]
  rfl

end SpeedboatCommitBuilder

end PowdrrEngine
