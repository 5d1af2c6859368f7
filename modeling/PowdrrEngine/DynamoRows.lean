import PowdrrEngine.ContractSchemaMerge
import PowdrrEngine.ServingTopKExact
import PowdrrEngine.DynamoStore

/-! What a published checkpoint holds. The rows that are written come back in their order; a column whose
values are plain in every row shows the same values afterwards. A column of the schema is one that some
row mentions. -/

namespace PowdrrEngine

open PowdrrSchema List Lists AList Value Run

variable {t : PowdrrDataType} {v : Value}

/-! ### What is assumed of Arrow and Parquet -/

/-- The type of a column of such values; none for lists, objects and integers beyond 64 bits. -/
def Value.plainType : Value → Option PowdrrDataType
  | .null => some .null
  | .bool _ => some .boolean
  | .string _ => some .string
  | .number (.float _) => some .float
  | .number (.posInt n) => if n < 2 ^ 63 then some .integer else none
  | .number (.negInt n) => if n < 2 ^ 63 then some .integer else none
  | .array _ | .object _ => none

theorem Value.isPlain_of_plainType (h : v.plainType = some t) : t.isPlain = true := by
  unfold plainType at h
  split at h <;> try (cases h <;> rfl)
  all_goals
    split at h
    · cases h
      rfl
    · cases h

theorem Value.plainType_eq_null (h : v.plainType = some .null) : v = .null := by
  unfold plainType at h
  split at h <;> first | rfl | simp at h

/-- A row and what is read of it: a plain value in a column of its type comes back, and there are no
columns but those of the schema. -/
structure ReadBack (schema : PowdrrSchema) (row row' : JsonMap) : Prop where
  column : ∀ field ∈ schema.fields, field.dataType.isPlain = true → ∀ v,
    row.lookup field.name = some v → v = .null ∨ v.plainType = some field.dataType → row'.lookup field.name = some v
  other : ∀ name, name ∉ schema.names → row'.lookup name = none

/-- Arrow infers one column for each member of a row, with the type of its value where that is plain;
rows that are written as a Parquet file are read back in their order. -/
structure DynamoRuntime.Lawful (rt : DynamoRuntime) : Prop where
  infer_nodup : ∀ row schema, rt.inferJsonSchema row = some schema → schema.names.Nodup
  infer_names : ∀ row schema, rt.inferJsonSchema row = some schema → ∀ name, name ∈ schema.names ↔ name ∈ row
  infer_type : ∀ row schema, rt.inferJsonSchema row = some schema → ∀ name v t,
    row.lookup name = some v → v.plainType = some t → ⟨name, t⟩ ∈ schema.fields
  read_back : ∀ schema rows size written, rt.writeParquet schema rows = .ok (size, written) →
    List.Forall₂ (ReadBack schema) rows written

/-- The type of any value, as Arrow infers it; the first item stands for those of a list. -/
def Value.inferredType : Value → PowdrrDataType
  | .null => .null
  | .bool _ => .boolean
  | .string _ => .string
  | .number (.float _) => .float
  | .number (.posInt n) => if n < 2 ^ 63 then .integer else .float
  | .number (.negInt n) => if n < 2 ^ 63 then .integer else .float
  | .array [] => .array .null
  | .array (item :: _) => .array (inferredType item)
  | .object members => .object ⟨inferredFields members⟩
where
  inferredFields : List (String × Value) → List PowdrrField
    | [] => []
    | member :: members => inferredField member :: inferredFields members
  inferredField : String × Value → PowdrrField
    | (name, value) => ⟨name, inferredType value⟩

/-- A text of the keys of items, which are objects of scalars. -/
def keyText : Value → String
  | .object members => String.join (members.map fun member => member.1 ++ ":" ++ scalarText member.2 ++ ",")
  | value => scalarText value
where
  scalarText : Value → String
    | .string text => "\"" ++ text ++ "\""
    | .number (.posInt n) => toString n
    | .number (.negInt n) => "-" ++ toString (n + 1)
    | _ => "null"

/-- A runtime that reads back what it has written. -/
def DynamoRuntime.plain : DynamoRuntime where
  floatText _ := ""
  jsonText := keyText
  inferJsonSchema row := some ⟨row.entries.map fun e => ⟨e.1, e.2.inferredType⟩⟩
  writeParquet schema rows := .ok (rows.length, rows.map fun row => row.retain fun name _ => name ∈ schema.names)
  s3IngestBasePath := "s3://ingest"
  tempDir := "/tmp"

theorem Value.inferredType_of_plainType (h : v.plainType = some t) : v.inferredType = t := by
  unfold plainType at h
  split at h <;> try (cases h <;> simp [inferredType])
  all_goals
    rename_i n
    by_cases hn : n < 2 ^ 63
    · rw [if_pos hn] at h
      cases h
      rw [inferredType, if_pos hn]
    · rw [if_neg hn] at h
      cases h

theorem DynamoRuntime.lawful_plain : DynamoRuntime.plain.Lawful := by
  have hnames : ∀ row : JsonMap, PowdrrSchema.names ⟨row.entries.map fun e => ⟨e.1, e.2.inferredType⟩⟩ =
      row.keys := fun row => by simp [PowdrrSchema.names, AList.keys, List.keys, Function.comp_def]
  refine ⟨fun row schema h => ?_, fun row schema h name => ?_, fun row schema h name v t hv ht => ?_,
    fun schema rows size written h => ?_⟩
  · cases h
    rw [hnames]
    exact row.nodupKeys
  · cases h
    rw [hnames]
    exact mem_keys
  · cases h
    have hmem := Dict.lookup_eq_some_iff.mp hv
    exact mem_map.mpr ⟨⟨name, v⟩, hmem, by rw [inferredType_of_plainType ht]⟩
  cases h
  refine forall₂_map_right_iff.mpr (forall₂_same.mpr fun row _ => ⟨?_, ?_⟩)
  · intro field hfield _ v hv _
    rw [Dict.lookup_retain, hv]
    simp [mem_names_of_mem hfield]
  · intro name hname
    rw [Dict.lookup_retain]
    simp [hname]

/-! ### Coercion -/

section

variable {object object' : JsonMap} {field : PowdrrField} {fields : List PowdrrField} {name : String}

theorem lookup_coerceField (h : coerceField field object = some object')
    (hname : name ≠ field.name) : object'.lookup name = object.lookup name := by
  obtain ⟨fieldName, dataType⟩ := field
  rw [coerceField] at h
  split at h
  · cases h
    exact lookup_insert_ne hname
  · obtain ⟨v, -, rfl⟩ := Option.map_eq_some_iff.mp h
    exact lookup_insert_ne hname

theorem lookup_coerceField_self (h : coerceField field object = some object') (hplain : field.dataType.isPlain = true) :
    object'.lookup field.name = some ((object.lookup field.name).getD .null) := by
  obtain ⟨fieldName, dataType⟩ := field
  rw [coerceField] at h
  cases hlookup : object.lookup fieldName with
  | none =>
    rw [hlookup] at h
    cases h
    rw [lookup_insert]
    cases dataType <;> first | rfl | cases hplain
  | some v =>
    rw [hlookup] at h
    obtain ⟨v', hv', rfl⟩ := Option.map_eq_some_iff.mp h
    rw [lookup_insert]
    cases dataType with
    | object _ | array _ => cases hplain
    | boolean | float | integer | null | string =>
      cases hv'
      rfl

theorem lookup_coerceFields (h : coerceFields fields object = some object')
    (hname : name ∉ fields.map (·.name)) : object'.lookup name = object.lookup name := by
  induction fields generalizing object with
  | nil =>
    rw [Option.some.inj h]
  | cons field fields ih =>
    obtain ⟨next, hnext, hrest⟩ := Option.bind_eq_some_iff.mp h
    rw [map_cons, mem_cons, not_or] at hname
    exact (ih hrest hname.2).trans (lookup_coerceField hnext hname.1)

theorem lookup_coerceFields_self (h : coerceFields fields object = some object')
    (hnodup : (fields.map (·.name)).Nodup) (hmem : field ∈ fields) (hplain : field.dataType.isPlain = true) :
    object'.lookup field.name = some ((object.lookup field.name).getD .null) := by
  induction fields generalizing object with
  | nil => cases hmem
  | cons first fields ih =>
    obtain ⟨next, hnext, hrest⟩ := Option.bind_eq_some_iff.mp h
    rw [map_cons, nodup_cons] at hnodup
    rcases mem_cons.mp hmem with rfl | hmem
    · rw [lookup_coerceFields hrest hnodup.1]
      exact lookup_coerceField_self hnext hplain
    · have hne : field.name ≠ first.name := fun heq => hnodup.1 (heq ▸ mem_map_of_mem hmem)
      rw [ih hrest hnodup.2 hmem, lookup_coerceField hnext hne]

theorem lookup_coerceMap {schema : PowdrrSchema} (h : coerceMap schema object = some object')
    (hnodup : schema.names.Nodup) (hmem : field ∈ schema.fields) (hplain : field.dataType.isPlain = true) :
    object'.lookup field.name = some ((object.lookup field.name).getD .null) := by
  obtain ⟨fields⟩ := schema
  exact lookup_coerceFields_self h hnodup hmem hplain

end

/-! ### Loading -/

theorem loadMutableTableRows_eq_ok {table : DynamoDbTable} {rows : List JsonMap}
    (h : table.loadMutableTableRows = .ok rows) :
    ∃ files, table.checkpoint.icebergFiles.asFileTuples = some files ∧
      rows.Perm (files.flatMap fun file => table.fileRows file.filePath) := by
  unfold DynamoDbTable.loadMutableTableRows checkpointFileDescriptors at h
  cases hmetadata : table.checkpoint.icebergMetadata with
  | none =>
    rw [hmetadata] at h
    cases h
  | some metadata =>
    rw [hmetadata] at h
    dsimp only at h
    split at h
    · cases h
    split at h
    · cases h
    rename_i files htuples
    refine ⟨files, by rw [TableMetadataCheckpoint.icebergFiles, hmetadata, htuples], ?_⟩
    have hperm := (groupFilesBySchema_perm files).flatMap_right fun file => table.fileRows file.filePath
    cases h
    simpa only [flatMap_def, map_flatten, flatten_flatten, map_map, Function.comp_def]
      using hperm

/-! ### Publishing -/

section

variable {rt : DynamoRuntime} {table table' : DynamoDbTable} {previous : TableMetadataCheckpoint}
  {rows : List JsonMap} {checkpointId : String} {schema fallback : PowdrrSchema} {name : String}

theorem publish_eq_ok (h : table.publishMutatedCheckpoint rt previous rows checkpointId = .ok table') :
    ∃ metadata schema coerced outputPath fileSize written, previous.icebergMetadata = some metadata ∧
      mergedRowSchema rt rows metadata.tableSchema = some schema ∧
      coerceRowsToSchema rows schema = some coerced ∧
      rt.writeParquet schema coerced = .ok (fileSize, written) ∧
      table' = { table with
        checkpoint := mutatedCheckpoint previous metadata schema checkpointId outputPath fileSize
        files := table.files.insert outputPath written } := by
  obtain ⟨fallback, hfallback, h⟩ := exists_ok_of_bind h
  obtain ⟨metadata, hmetadata, h⟩ := exists_ok_of_bind h
  obtain ⟨schema, hschema, h⟩ := exists_ok_of_bind h
  obtain ⟨coerced, hcoerced, h⟩ := exists_ok_of_bind h
  obtain ⟨outputPath, -, h⟩ := exists_ok_of_bind h
  obtain ⟨⟨fileSize, written⟩, hwritten, htable⟩ := exists_ok_of_bind h
  rw [DynamoResult.ofOption_eq_ok] at hmetadata
  rw [orPanic_eq_ok] at hschema hcoerced
  simp only [schemaFromCheckpoint, hmetadata] at hfallback
  cases hfallback
  refine ⟨metadata, schema, coerced, outputPath, fileSize, written, hmetadata, hschema, hcoerced, ?_, ?_⟩
  · unfold writeRowsToParquet at hwritten
    split at hwritten
    · rename_i hok
      rw [hok, Except.ok.inj hwritten]
    · cases hwritten
  · exact (Except.ok.inj htable).symm

theorem publish_items (hlaw : rt.Lawful)
    (h : table.publishMutatedCheckpoint rt previous rows checkpointId = .ok table') :
    ∃ metadata schema coerced, previous.icebergMetadata = some metadata ∧
      mergedRowSchema rt rows metadata.tableSchema = some schema ∧
      coerceRowsToSchema rows schema = some coerced ∧
      schemaFromCheckpoint table'.checkpoint = .ok schema ∧
      table'.loadMutableTableRows = .ok table'.items ∧ table'.config = table.config ∧
      List.Forall₂ (ReadBack schema) coerced table'.items := by
  obtain ⟨metadata, schema, coerced, path, size, written, hmetadata, hschema, hcoerced, hwrite, rfl⟩ := publish_eq_ok h
  have hrows : Dict.getD (table.files.insert path written) path [] = written := by
    rw [Dict.getD, lookup_insert, Option.getD_some]
  have hitems : DynamoDbTable.items ⟨table.config,
      mutatedCheckpoint previous metadata schema checkpointId path size, table.files.insert path written⟩ =
      written := by
    simp [DynamoDbTable.items, mutatedCheckpoint, TableMetadataCheckpoint.icebergPaths,
      TableMetadataCheckpoint.icebergFiles, TableMetadataCheckpoint.speedboatPaths,
      TableMetadataCheckpoint.speedboatFiles, FileSetPayload.single, FileSetPayload.new,
      DynamoDbTable.fileRows, hrows]
  refine ⟨metadata, schema, coerced, hmetadata, hschema, hcoerced, rfl, ?_, rfl, ?_⟩
  · rw [hitems]
    simp [DynamoDbTable.loadMutableTableRows, checkpointFileDescriptors, mutatedCheckpoint,
      TableMetadataCheckpoint.deletePaths, FileSetPayload.single, FileSetPayload.asFileTuples,
      FileSetPayload.fileTuples, groupFilesBySchema, pushBySchema, Except.map, DynamoDbTable.fileRows, hrows]
  · rw [hitems]
    exact hlaw.read_back schema coerced size written hwrite

theorem DynamoRuntime.Lawful.typeAt {row : JsonMap} {inferred : PowdrrSchema}
    (hlaw : rt.Lawful) (hinfer : rt.inferJsonSchema row = some inferred) (hv : row.lookup name = some v)
    (ht : v.plainType = some t) : typeAt inferred.fields name = some t :=
  (typeAt_eq_some (hlaw.infer_nodup row inferred hinfer)).mpr (hlaw.infer_type row inferred hinfer name v t hv ht)

section

variable (hlaw : rt.Lawful) (h : mergedRowSchema rt rows fallback = some schema)

include hlaw h

theorem mergeOf_mergedRowSchema (hrows : rows ≠ []) :
    ∃ schemas, List.Forall₂ (fun row inferred => rt.inferJsonSchema row = some inferred) rows schemas ∧
      MergeOf schemas schema := by
  rw [mergedRowSchema, if_neg hrows] at h
  obtain ⟨schemas, hschemas, hmerge⟩ := Option.bind_eq_some_iff.mp h
  have hinferred := forall₂_of_mapM hschemas
  refine ⟨schemas, hinferred, ?_⟩
  have hnodup : ∀ inferred ∈ schemas, inferred.names.Nodup := by
    intro inferred hmem
    obtain ⟨row, -, hrow⟩ := exists_mem_of_forall₂ hinferred hmem
    exact hlaw.infer_nodup row inferred hrow
  exact mergeOf_mergeAll hnodup hmerge

theorem mem_mergedRowSchema {row : JsonMap}
    (hrow : row ∈ rows) (hv : row.lookup name = some v) (ht : v.plainType = some t)
    (hnull : v ≠ .null) : ⟨name, t⟩ ∈ schema.fields := by
  obtain ⟨schemas, hinferred, hmerge⟩ := mergeOf_mergedRowSchema hlaw h (ne_nil_of_mem hrow)
  obtain ⟨inferred, hmem, hinfer⟩ := exists_right_of_forall₂ hinferred hrow
  obtain ⟨u, hu, hgrown⟩ := hmerge.exists_above hmem (hlaw.typeAt hinfer hv ht)
  have hsame : u = t := (eq_of_growth hgrown).1 (isPlain_of_plainType ht) fun heq =>
    hnull (plainType_eq_null (by rw [ht, heq]))
  exact hsame ▸ (typeAt_eq_some hmerge.nodup).mp hu

end

section

variable (hlaw : rt.Lawful) (h : table.publishMutatedCheckpoint rt previous rows checkpointId = .ok table')

include hlaw h

/-- **A plain value through a write.** Row by row, a value that is plain and not null stays, also in a
column where the values of other rows are not plain. -/
theorem publish_keeps :
    List.Forall₂ (fun row row' => ∀ name v t, row.lookup name = some v → v.plainType = some t → v ≠ .null →
      row'.lookup name = some v) rows table'.items := by
  obtain ⟨metadata, schema, coerced, -, hschema, hcoerced, -, -, -, hitems⟩ := publish_items hlaw h
  have hrel := forall₂_mem (forall₂_trans (forall₂_of_mapM hcoerced) hitems)
  refine hrel.imp fun row stored hrow name v t hv ht hnull => ?_
  obtain ⟨hmem, c, hc, hstored⟩ := hrow
  obtain ⟨schemas, -, hmerge⟩ := mergeOf_mergedRowSchema hlaw hschema (ne_nil_of_mem hmem)
  have hfield := mem_mergedRowSchema hlaw hschema hmem hv ht hnull
  have hplain := isPlain_of_plainType ht
  have hlookup := lookup_coerceMap hc hmerge.nodup hfield hplain
  simp only [hv, Option.getD_some] at hlookup
  exact hstored.column _ hfield hplain v hlookup (Or.inr ht)

end

end

end PowdrrEngine
