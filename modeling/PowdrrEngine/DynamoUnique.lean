import PowdrrEngine.DynamoKeys
import PowdrrEngine.ServingCache
import PowdrrEngine.ServingExactOrder

/-! Primary keys over a history of writes. Rows are matched with a key by `==` on JSON values, where an
integer is never equal to a double. A read looks keys up in an index that tells the two apart as well, or,
on a table with speedboat files, asks SQL, which compares numbers by value. All of them agree on keys of
strings and 64-bit integers, and for such keys every history keeps the keys of a table unique. -/

namespace PowdrrEngine

open List Except Run

variable {keySchema : DynamoDbKeySchemaConfig} {rows : List JsonMap}

/-! ### Equality of keys -/

/-- Equality as DynamoDB has it: numbers are compared by value. -/
def dynamoEq : Value → Value → Bool
  | .number a, .number b => a.exact.cmp b.exact = .eq
  | a, b => a.jsonEq b

example : dynamoEq (.int 1) ((parseNumber "1.0").getD .null) = true := by decide

/-- Two rows with one key, as DynamoDB compares it. -/
def KeyEq (keySchema : DynamoDbKeySchemaConfig) (a b : JsonMap) : Prop :=
  ∀ name ∈ keySchema.fields, ∃ v w, a.lookup name = some v ∧ b.lookup name = some w ∧ dynamoEq v w = true

/-- Every key field holds a string or a 64-bit integer. -/
def KeyValues (keySchema : DynamoDbKeySchemaConfig) (row : JsonMap) : Prop :=
  ∀ name ∈ keySchema.fields, ∃ v, row.lookup name = some v ∧ v.isKeyValue = true

theorem exists_asInt_of_isKeyValue {n : Number} (h : (Value.number n).isKeyValue = true) : ∃ x, n.asInt = some x := by
  cases n with
  | posInt n | negInt n => exact ⟨_, rfl⟩
  | float f => cases h

theorem dynamoEq_iff_of_isKeyValue {a b : Value} (ha : a.isKeyValue = true) (hb : b.isKeyValue = true) :
    dynamoEq a b = true ↔ a = b := by
  cases a with
  | null | bool _ | array _ | object _ => cases ha
  | string a => cases b <;> simp [dynamoEq, Value.jsonEq]
  | number a =>
    cases b with
    | null | bool _ | array _ | object _ => cases hb
    | string b => simp [dynamoEq, Value.jsonEq]
    | number b =>
      obtain ⟨x, hx⟩ := exists_asInt_of_isKeyValue ha
      obtain ⟨y, hy⟩ := exists_asInt_of_isKeyValue hb
      rw [Value.number.injEq, ← Number.asInt_eq_iff hx hy]
      simp [dynamoEq, Number.cmp_exact_of_asInt hx hy]

section

variable {row key : JsonMap}

theorem keyEq_iff (hrow : KeyValues keySchema row) (hkey : KeyValues keySchema key) :
    KeyEq keySchema row key ↔ ∀ name ∈ keySchema.fields, row.lookup name = key.lookup name := by
  refine forall₂_congr fun name hname => ?_
  obtain ⟨v, hv, hvkey⟩ := hrow name hname
  obtain ⟨w, hw, hwkey⟩ := hkey name hname
  rw [hv, hw]
  constructor
  · rintro ⟨_, _, ⟨⟩, ⟨⟩, heq⟩
    rw [(dynamoEq_iff_of_isKeyValue hvkey hwkey).mp heq]
  · intro heq
    exact ⟨v, w, rfl, rfl, (dynamoEq_iff_of_isKeyValue hvkey hwkey).mpr (Option.some.inj heq)⟩

theorem rowMatchesKey_iff_keyEq (hrow : KeyValues keySchema row) (hkey : KeyValues keySchema key) :
    rowMatchesKey keySchema key row = true ↔ KeyEq keySchema row key := by
  rw [rowMatchesKey_iff, keyEq_iff hrow hkey]
  refine forall₂_congr fun name hname => ?_
  obtain ⟨w, hw, hwkey⟩ := hkey name hname
  rw [hw, optionJsonEq_iff hwkey]

end

/-! ### Reads -/

/-- What the SQL of a read of a key selects. -/
def selectByKey (keySchema : DynamoDbKeySchemaConfig) (key : JsonMap) (rows : List JsonMap) : List JsonMap :=
  rows.filter fun row => (keyToPredicates keySchema key).all fun predicate => predicate.holds sqlCompare row

theorem sqlCompare_isEq_iff {a b : Value} (ha : a.isKeyValue = true) (hb : b.isKeyValue = true) :
    (sqlCompare a b).any (·.isEq) = true ↔ a = b := by
  cases a with
  | null | bool _ | array _ | object _ => cases ha
  | string a => cases b <;> simp [sqlCompare, Ordering.isEq_iff_eq_eq]
  | number a =>
    cases b with
    | null | bool _ | array _ | object _ => cases hb
    | string b => simp [sqlCompare]
    | number b =>
      obtain ⟨x, hx⟩ := exists_asInt_of_isKeyValue ha
      obtain ⟨y, hy⟩ := exists_asInt_of_isKeyValue hb
      rw [Value.number.injEq, ← Number.asInt_eq_iff hx hy]
      simp [sqlCompare, sqlCompareNumbers, hx, hy, Ordering.isEq_iff_eq_eq]

theorem mem_selectByKey {key row : JsonMap} (hrow : KeyValues keySchema row) (hkey : KeyValues keySchema key) :
    row ∈ selectByKey keySchema key rows ↔ row ∈ rows ∧ KeyEq keySchema row key := by
  rw [selectByKey, mem_filter, keyEq_iff hrow hkey, keyToPredicates, all_map, all_eq_true]
  refine and_congr_right fun _ => forall₂_congr fun name hname => ?_
  obtain ⟨v, hv, hvkey⟩ := hrow name hname
  obtain ⟨w, hw, hwkey⟩ := hkey name hname
  have hnull := (Value.plainType_of_isKeyValue hvkey).1
  simp only [Function.comp_apply, ReadPredicate.holds_iff, hv, hw, ReadPredicate.accepts, Option.some.injEq]
  rw [← sqlCompare_isEq_iff hvkey hwkey]
  constructor
  · rintro ⟨_, rfl, -, h⟩
    exact h
  · intro h
    exact ⟨v, rfl, hnull, h⟩

def DynamoDbTable.servingStore (table : DynamoDbTable) : ServingStore := ⟨table.fileRows, fun _ => []⟩

/-- The rows of `handle_get_item` for a parsed key, without a projection: those of
`execute_fast_path_point_lookup_rows`, and those of the SQL where it leaves the request. The caches of
checkpoints are empty, and what is in delete files is left out; a table that has some cannot be written. None
where the service stops. -/
def DynamoDbTable.getItemRows (hash : SnapshotLookupKey → Nat) (text : Value → String) (table : DynamoDbTable)
    (key : JsonMap) : Option (List JsonMap) := do
  let files ← table.checkpoint.icebergFiles.asFileTuples
  let speedboatFiles ← table.checkpoint.speedboatFiles.asFileTuples
  let context : ServingContext :=
    { checkpoint := ⟨table.checkpoint.tableName, table.checkpoint.checkpointId, table.checkpoint.originalCheckpointId⟩
      files, speedboatFiles
      deleteFiles := table.checkpoint.deletePaths
      fileStats := ∅ }
  let request : ReadPlan := { filters := keyToPredicates table.keySchema key, limit := some 1 }
  match (executeCheckpointExactLookupBatchRows table.servingStore hash text context ∅ [request]).1 with
  | some (rows :: _) => some rows
  | _ => some ((selectByKey table.keySchema key table.items).take 1)

/-- The rows with the very values of a key. -/
def rowsOfKey (keySchema : DynamoDbKeySchemaConfig) (key : JsonMap) (rows : List JsonMap) : List JsonMap :=
  rows.filter fun row => keySchema.fields.all fun name => row.lookup name = key.lookup name

section

variable {key : JsonMap} {fields : List String}

theorem hasKey_eq_decide {row : JsonMap} {name : String} {v : Value} {k : SnapshotLookupKey}
    (hv : encodeExactLookupKey v = some k) : hasKey name k row = decide (row.lookup name = some v) := by
  cases hrow : row.lookup name with
  | none => simp [hasKey, hrow]
  | some w =>
    rw [hasKey_of_lookup hrow, decide_eq_decide, Option.some.injEq]
    refine ⟨fun hw => ?_, fun h => h ▸ hv⟩
    cases w <;> cases hw <;> cases v <;> cases hv <;> rfl

theorem exists_encode_of_isKeyValue {v : Value} (h : v.isKeyValue = true) : ∃ k, encodeExactLookupKey v = some k := by
  cases v with
  | null | bool _ | array _ | object _ => cases h
  | number _ | string _ => exact ⟨_, rfl⟩

variable (hkey : ∀ name ∈ fields, ∃ v k, key.lookup name = some v ∧ encodeExactLookupKey v = some k)

include hkey

theorem exists_exactLookupPredicate_mapM : ∃ predicates : List ExactLookupPredicate,
    (fields.map fun name => { field := name, eq := key.lookup name : ReadPredicate }).mapM
      ReadPredicate.exactLookupPredicate = some predicates ∧ predicates.length = fields.length ∧
    ∀ row, (predicates.all fun predicate => predicate.admits row) =
      fields.all fun name => row.lookup name = key.lookup name := by
  induction fields with
  | nil => exact ⟨[], rfl, rfl, fun _ => rfl⟩
  | cons name fields ih =>
    obtain ⟨⟨v, k, hv, hk⟩, hfields⟩ := forall_mem_cons.mp hkey
    obtain ⟨predicates, hpredicates, hlength, hadmits⟩ := ih hfields
    have hfirst : ({ field := name, eq := key.lookup name : ReadPredicate }).exactLookupPredicate =
        some ⟨name, [k]⟩ := by
      simp [ReadPredicate.exactLookupPredicate, ReadPredicate.hasRange, hv, hk]
    refine ⟨⟨name, [k]⟩ :: predicates, ?_, by rw [length_cons, hlength, length_cons], fun row => ?_⟩
    · rw [map_cons, mapM_cons, hfirst, hpredicates]
      rfl
    · rw [all_cons, all_cons, hadmits row, ExactLookupPredicate.admits, any_cons, any_nil, Bool.or_false,
        hasKey_eq_decide hk, hv]

end

/-- The request for a key is answered from the exact index. -/
theorem exists_exact_plan {key : JsonMap}
    (hkey : ∀ name ∈ keySchema.fields, ∃ v k, key.lookup name = some v ∧ encodeExactLookupKey v = some k) :
    ∃ predicates, snapshotLookupPlan { filters := keyToPredicates keySchema key, limit := some 1 } =
        some (.exact predicates) ∧
      ∀ row, (predicates.all fun predicate => predicate.admits row) =
        keySchema.fields.all fun name => row.lookup name = key.lookup name := by
  obtain ⟨predicates, hpredicates, hlength, hadmits⟩ := exists_exactLookupPredicate_mapM hkey
  have hsome : predicates ≠ [] := by
    rintro rfl
    simp [DynamoDbKeySchemaConfig.fields] at hlength
  have hexact : exactLookupPredicates { filters := keyToPredicates keySchema key, limit := some 1 } =
      some predicates := by
    simp [exactLookupPredicates, keyToPredicates, hpredicates, hsome]
  exact ⟨predicates, by rw [snapshotLookupPlan, hexact], hadmits⟩

theorem DynamoDbTable.fullScan_servingStore (table : DynamoDbTable) (deleteFiles : List String)
    (files : List FileDescriptor) : table.servingStore.fullScan deleteFiles files =
      files.flatMap fun file => table.fileRows file.filePath := by
  refine flatMap_congr fun file _ => filter_eq_self.mpr fun row _ => ?_
  rw [ServingStore.survivesDeletes, Option.all_eq_true]
  simp [servingStore]

/-- **A read of a key** on a table without speedboat files: the first of the rows with the very values of the
key. -/
theorem getItemRows_of_iceberg (hash : SnapshotLookupKey → Nat) (text : Value → String) {table : DynamoDbTable}
    {key : JsonMap} {files : List FileDescriptor}
    (hkey : ∀ name ∈ table.keySchema.fields, ∃ v k, key.lookup name = some v ∧ encodeExactLookupKey v = some k)
    (hfiles : table.checkpoint.icebergFiles.asFileTuples = some files) (hne : files ≠ [])
    (hspeedboat : table.checkpoint.speedboatFiles.asFileTuples = some []) :
    ∃ selected : List JsonMap, table.getItemRows hash text key = some (selected.take 1) ∧
      selected.Perm (rowsOfKey table.keySchema key (files.flatMap fun file => table.fileRows file.filePath)) := by
  obtain ⟨predicates, hplan, hadmits⟩ := exists_exact_plan hkey
  have hsort : ReadPlan.sortable { filters := keyToPredicates table.keySchema key, limit := some 1 }
      (files.flatMap fun file => table.fileRows file.filePath) = true := rfl
  obtain ⟨selected, hperm, -, htake⟩ := exists_lookupRowRefs hash text hplan hsort
  refine ⟨selected, ?_, ?_⟩
  · unfold DynamoDbTable.getItemRows executeCheckpointExactLookupBatchRows getOrBuildSnapshotLookupCache
    rw [hfiles, hspeedboat]
    have hlookup := htake (ReadPlan.normalizedLimit { filters := keyToPredicates table.keySchema key, limit := some 1 })
    simp only [Option.bind_eq_bind, Option.bind_some, hne, ne_eq, not_true_eq_false, or_self, if_false,
      cons_ne_nil, AList.lookup_empty, table.fullScan_servingStore, mapM_cons, mapM_nil, hplan, Option.map_some, Option.pure_def]
    have hproject : projectedRowValue none = id := funext fun _ => rfl
    rw [SnapshotLookupCache.answer, SnapshotLookupCache.projectedValues, hproject, List.map_id]
    exact congrArg some hlookup
  · have hrows : rowsOfKey table.keySchema key (files.flatMap fun file => table.fileRows file.filePath) =
        (files.flatMap fun file => table.fileRows file.filePath).filter
          (SnapshotLookupPlan.admits text (.exact predicates)) := filter_congr fun row _ => (hadmits row).symm
    rw [hrows]
    exact hperm

/-! ### Keys of a list of rows -/

/-- Every row has a key of strings and 64-bit integers, and no two rows have equal keys. -/
structure Keyed (keySchema : DynamoDbKeySchemaConfig) (rows : List JsonMap) : Prop where
  values : ∀ row ∈ rows, KeyValues keySchema row
  unique : rows.Pairwise fun a b => ¬ KeyEq keySchema a b

section

variable {rows' : List JsonMap} {key item : JsonMap}

theorem KeyValues.congr {row row' : JsonMap} (h : KeyValues keySchema row)
    (hsame : ∀ name ∈ keySchema.fields, row'.lookup name = row.lookup name) : KeyValues keySchema row' := by
  intro name hname
  rw [hsame name hname]
  exact h name hname

section

variable (h : Keyed keySchema rows)

include h

theorem Keyed.sublist (hsub : rows'.Sublist rows) : Keyed keySchema rows' :=
  ⟨fun row hrow => h.values row (hsub.subset hrow), h.unique.sublist hsub⟩

theorem Keyed.pairwise : rows.Pairwise fun a b => ¬ KeyEq keySchema a b ∧ ¬ KeyEq keySchema b a := by
  refine h.unique.imp_of_mem fun {a b} ha hb hab => ⟨hab, fun hba => hab ?_⟩
  rw [keyEq_iff (h.values b hb) (h.values a ha)] at hba
  exact (keyEq_iff (h.values a ha) (h.values b hb)).mpr fun name hname => (hba name hname).symm

theorem Keyed.perm (hperm : rows'.Perm rows) : Keyed keySchema rows' :=
  ⟨fun row hrow => h.values row (hperm.mem_iff.mp hrow),
    (hperm.symm.pairwise h.pairwise fun hab => ⟨hab.2, hab.1⟩).imp And.left⟩

theorem Keyed.eq_of_keyEq {row row' : JsonMap} (hrow : row ∈ rows) (hrow' : row' ∈ rows)
    (heq : KeyEq keySchema row row') : row = row' := by
  by_contra hne
  have hsymm : Std.Symm fun a b => ¬ KeyEq keySchema a b ∧ ¬ KeyEq keySchema b a := ⟨fun _ _ hab => ⟨hab.2, hab.1⟩⟩
  exact (h.pairwise.forall hrow hrow' hne).1 heq

theorem Keyed.replace (hkey : KeyValues keySchema key)
    (hitem : ∀ name ∈ keySchema.fields, item.lookup name = key.lookup name) :
    Keyed keySchema ((splitRowsByKey rows keySchema key).2 ++ [item]) := by
  have hvalues := hkey.congr hitem
  have hretained : Keyed keySchema (splitRowsByKey rows keySchema key).2 := h.sublist filter_sublist
  refine ⟨fun row hrow => ?_, pairwise_append.mpr ⟨hretained.unique, pairwise_singleton _ _, ?_⟩⟩
  · rcases mem_append.mp hrow with hrow | hrow
    · exact hretained.values row hrow
    · exact mem_singleton.mp hrow ▸ hvalues
  intro row hrow other hother heq
  obtain rfl := mem_singleton.mp hother
  obtain ⟨hmem, hnot⟩ := mem_filter.mp hrow
  have hrowkey := h.values row hmem
  have hmatch : rowMatchesKey keySchema key row = true := by
    rw [rowMatchesKey_iff_keyEq hrowkey hkey, keyEq_iff hrowkey hkey]
    intro name hname
    rw [(keyEq_iff hrowkey hvalues).mp heq name hname, hitem name hname]
  rw [hmatch] at hnot
  cases hnot

theorem Keyed.of_forall₂
    (hkept : List.Forall₂ (fun row row' => ∀ name v t, row.lookup name = some v → v.plainType = some t →
      v ≠ .null → row'.lookup name = some v) rows rows') : Keyed keySchema rows' := by
  have hsame : List.Forall₂ (fun row row' => KeyValues keySchema row ∧
      ∀ name ∈ keySchema.fields, row'.lookup name = row.lookup name) rows rows' := by
    refine (Lists.forall₂_mem hkept).imp fun row row' hrow => ⟨h.values row hrow.1, fun name hname => ?_⟩
    obtain ⟨v, hv, hvkey⟩ := h.values row hrow.1 name hname
    obtain ⟨hnull, t, ht⟩ := Value.plainType_of_isKeyValue hvkey
    rw [hv, hrow.2 name v t hv ht hnull]
  refine ⟨fun row' hrow' => ?_, ?_⟩
  · obtain ⟨row, -, hvalues, hrow⟩ := Lists.exists_mem_of_forall₂ hsame hrow'
    exact hvalues.congr hrow
  have hunique := h.unique
  clear h hkept
  induction hsame with
  | nil => exact .nil
  | @cons row row' rest rest' hrow hrest ih =>
    rw [pairwise_cons] at hunique ⊢
    refine ⟨fun other' hother' heq => ?_, ih hunique.2⟩
    obtain ⟨other, hother, hothervalues, hothersame⟩ := Lists.exists_mem_of_forall₂ hrest hother'
    refine hunique.1 other hother ?_
    rw [keyEq_iff (hrow.1.congr hrow.2) (hothervalues.congr hothersame)] at heq
    rw [keyEq_iff hrow.1 hothervalues]
    intro name hname
    rw [← hrow.2 name hname, ← hothersame name hname]
    exact heq name hname

end

end

/-! ### Histories -/

section

variable (keySchema)

def BatchWriteRequest.itemKey : BatchWriteRequest → Option (DynamoResult JsonMap)
  | ⟨some item, none⟩ => some (parseItemKeyMap item keySchema)
  | ⟨none, some key⟩ => some (parseKeyMap key keySchema)
  | _ => none

def WriteRequest.itemKeys : WriteRequest → List (DynamoResult JsonMap)
  | .batchWriteItem requests => requests.filterMap fun request => request.itemKey keySchema
  | request => (request.itemKey keySchema).toList

/-- Every key of the request, as it is parsed, is one of strings and 64-bit integers. -/
def WriteRequest.Keyed (request : WriteRequest) : Prop :=
  ∀ key, .ok key ∈ request.itemKeys keySchema → KeyValues keySchema key

end

section

variable {rt : DynamoRuntime} {table : DynamoDbTable} {operations : List BatchWriteOperation} {schema : PowdrrSchema}

theorem parseBatchOperations_mem {tableName : String} {seen seen' : List String} {requests : List BatchWriteRequest}
    (h : parseBatchOperations rt tableName schema keySchema seen requests = .ok (operations, seen')) :
    ∀ operation ∈ operations, ∃ request ∈ requests,
      parseBatchWriteRequest schema keySchema request = .ok operation := by
  induction requests generalizing seen operations with
  | nil =>
    cases h
    intro operation hmem
    cases hmem
  | cons request requests ih =>
    obtain ⟨first, hfirst, h⟩ := exists_ok_of_bind h
    dsimp only at h
    split at h
    · cases h
    obtain ⟨⟨rest, seen''⟩, hrest, h⟩ := exists_ok_of_bind h
    cases h
    intro operation hmem
    rcases mem_cons.mp hmem with rfl | hmem
    · exact ⟨request, mem_cons_self, hfirst⟩
    · obtain ⟨r, hr, hparse⟩ := ih hrest operation hmem
      exact ⟨r, mem_cons_of_mem _ hr, hparse⟩

theorem parseBatchWriteRequest_key {request : BatchWriteRequest} {operation : BatchWriteOperation}
    (h : parseBatchWriteRequest schema keySchema request = .ok operation) :
    request.itemKey keySchema = some (.ok operation.key) ∧
      ∀ item key, operation = .put item key → ∀ name ∈ keySchema.fields, item.lookup name = key.lookup name := by
  obtain ⟨putRequest, deleteRequest⟩ := request
  cases putRequest with
  | none =>
    cases deleteRequest with
    | none => cases h
    | some attributes =>
      obtain ⟨key, hkey, h⟩ := exists_ok_of_bind h
      cases h
      exact ⟨congrArg some hkey, fun item key heq => by cases heq⟩
  | some attributes =>
    cases deleteRequest with
    | some _ => cases h
    | none =>
      obtain ⟨item, hitem, h⟩ := exists_ok_of_bind h
      obtain ⟨_, -, h⟩ := exists_ok_of_bind h
      obtain ⟨key, hkey, h⟩ := exists_ok_of_bind h
      cases h
      refine ⟨congrArg some hkey, fun item' key' heq name hname => ?_⟩
      cases heq
      exact lookup_put hitem hkey hname

theorem Keyed.foldl_applyBatchOperation (hoperations : ∀ operation ∈ operations, KeyValues keySchema operation.key ∧
        ∀ item key, operation = .put item key → ∀ name ∈ keySchema.fields, item.lookup name = key.lookup name)
    {state : List JsonMap × Bool} (h : Keyed keySchema state.1) :
    Keyed keySchema (operations.foldl (applyBatchOperation keySchema) state).1 := by
  induction operations generalizing state with
  | nil => exact h
  | cons operation operations ih =>
    refine ih (fun o ho => hoperations o (mem_cons_of_mem _ ho)) ?_
    obtain ⟨hkey, hput⟩ := hoperations operation mem_cons_self
    cases operation with
    | put item key => exact h.replace hkey (hput item key rfl)
    | delete key => exact h.sublist filter_sublist

theorem Keyed.of_edits (h : Keyed table.keySchema rows) {request : WriteRequest} {edited : List JsonMap}
    (hrequest : request.Keyed table.keySchema) (hedits : Edits rt table rows request (some edited)) :
    Keyed table.keySchema edited := by
  cases hedits with
  | put hitem hkey hcondition =>
    refine h.replace (hrequest _ ?_) fun name hname => lookup_put hitem hkey hname
    exact mem_singleton.mpr hkey.symm
  | update hkey hactions hcondition hitem =>
    refine h.replace (hrequest _ (mem_singleton.mpr hkey.symm)) fun name hname => ?_
    obtain ⟨object, hobject, hitem⟩ := exists_ok_of_bind hitem
    rw [lookup_applyUpdateActions hitem fun action hmem heq =>
      checkUpdateActions_eq_ok hactions action hmem (heq ▸ hname)]
    exact lookup_insertKey hobject hname
  | delete hkey hcondition hfound => exact h.sublist filter_sublist
  | batch hoperations hchanged =>
    refine Keyed.foldl_applyBatchOperation (fun operation hmem => ?_) h
    obtain ⟨entry, hentry, hparse⟩ := parseBatchOperations_mem hoperations operation hmem
    obtain ⟨hkey, hput⟩ := parseBatchWriteRequest_key hparse
    exact ⟨hrequest _ (mem_filterMap.mpr ⟨entry, hentry, hkey⟩), hput⟩

theorem loadMutableTableRows_subperm (h : table.loadMutableTableRows = .ok rows) : rows.Subperm table.items := by
  obtain ⟨files, htuples, hperm⟩ := loadMutableTableRows_eq_ok h
  obtain ⟨rest, hrest⟩ := FileSetPayload.fileTuples_paths htuples
  refine hperm.subperm.trans (List.Sublist.subperm ?_)
  have hmap : (files.flatMap fun file => table.fileRows file.filePath) =
      (files.map FileDescriptor.filePath).flatMap table.fileRows := by
    rw [flatMap_map]
  rw [hmap, DynamoDbTable.items, TableMetadataCheckpoint.icebergPaths, ← hrest, append_assoc, flatMap_append]
  exact sublist_append_left _ _

theorem Keyed.write (hlaw : rt.Lawful) (h : Keyed table.keySchema table.items) {call : WriteCall}
    (hcall : call.request.Keyed table.keySchema) : Keyed table.keySchema (table.write rt call).2.items := by
  refine write_invariant (P := fun table' => Keyed table.keySchema table'.items) h ?_
  intro rows rows' table' hrows hedits hpublish
  obtain ⟨sub, hperm, hsub⟩ := loadMutableTableRows_subperm hrows
  have hloaded := (h.sublist hsub).perm hperm.symm
  exact (hloaded.of_edits hcall hedits).of_forall₂ (publish_keeps hlaw hpublish)

/-- The items are those that a write loads. -/
def DynamoDbTable.LoadsAll (table : DynamoDbTable) : Prop :=
  ∀ rows, table.loadMutableTableRows = .ok rows → rows.Perm table.items

theorem DynamoDbTable.LoadsAll.write (hlaw : rt.Lawful) (h : table.LoadsAll) (call : WriteCall) :
    (table.write rt call).2.LoadsAll := by
  refine write_invariant h ?_
  intro rows rows' table' _ _ hpublish loaded hloaded
  obtain ⟨_, _, _, -, -, -, -, hload, -, -⟩ := publish_items hlaw hpublish
  rw [ok.inj (hloaded.symm.trans hload)]

end

/-- The table after a sequence of requests. -/
def DynamoDbTable.writes (rt : DynamoRuntime) (table : DynamoDbTable) (calls : List WriteCall) : DynamoDbTable :=
  calls.foldl (fun table call => (table.write rt call).2) table

section

variable {key row : JsonMap} (h : Keyed keySchema rows) (hkey : KeyValues keySchema key)

include h hkey

theorem Keyed.keyEq_of_keyEq {row' : JsonMap} (hrow : row ∈ rows) (hrow' : row' ∈ rows)
    (heq : KeyEq keySchema row key) (heq' : KeyEq keySchema row' key) : KeyEq keySchema row row' := by
  rw [keyEq_iff (h.values row hrow) hkey] at heq
  rw [keyEq_iff (h.values row' hrow') hkey] at heq'
  rw [keyEq_iff (h.values row hrow) (h.values row' hrow')]
  exact fun name hname => (heq name hname).trans (heq' name hname).symm

theorem Keyed.mem_selectByKey_iff :
    row ∈ selectByKey keySchema key rows ↔ row ∈ rows ∧ KeyEq keySchema row key := by
  constructor
  · intro hmem
    exact (mem_selectByKey (h.values row (mem_filter.mp hmem).1) hkey).mp hmem
  · intro hmem
    exact (mem_selectByKey (h.values row hmem.1) hkey).mpr hmem

theorem Keyed.find_eq_some_iff :
    (splitRowsByKey rows keySchema key).1 = some row ↔ row ∈ rows ∧ KeyEq keySchema row key := by
  constructor
  · intro hfound
    have hmem := mem_of_find?_eq_some hfound
    exact ⟨hmem, (rowMatchesKey_iff_keyEq (h.values row hmem) hkey).mp (List.find?_some hfound)⟩
  rintro ⟨hmem, heq⟩
  have hmatch := (rowMatchesKey_iff_keyEq (h.values row hmem) hkey).mpr heq
  obtain ⟨found, hfound⟩ := Option.isSome_iff_exists.mp (List.find?_isSome.mpr ⟨row, hmem, hmatch⟩)
  have hfoundmem := mem_of_find?_eq_some hfound
  have hfoundeq := (rowMatchesKey_iff_keyEq (h.values found hfoundmem) hkey).mp (List.find?_some hfound)
  rw [← h.eq_of_keyEq hfoundmem hmem (h.keyEq_of_keyEq hkey hfoundmem hmem hfoundeq heq)]
  exact hfound

/-- Of rows with distinct keys one at most has a given key. -/
theorem Keyed.take_one {selected : List JsonMap} (hselected : selected.Subperm rows)
    (hequal : ∀ row ∈ selected, KeyEq keySchema row key) : selected.take 1 = selected := by
  obtain ⟨sub, hperm, hsub⟩ := hselected
  have hkeyed := (h.sublist hsub).perm hperm.symm
  match selected with
  | [] | [_] => rfl
  | first :: second :: others =>
    have hsecond : second ∈ first :: second :: others := mem_cons_of_mem _ mem_cons_self
    refine absurd ?_ ((pairwise_cons.mp hkeyed.unique).1 second mem_cons_self)
    exact hkeyed.keyEq_of_keyEq hkey mem_cons_self hsecond (hequal first mem_cons_self) (hequal second hsecond)

end

/-- **A read of a key** of strings and 64-bit integers returns the item whose key is equal, from the index as
from SQL. -/
theorem Keyed.mem_getItemRows {hash : SnapshotLookupKey → Nat} {text : Value → String} {table : DynamoDbTable}
    {key row : JsonMap} {read : List JsonMap} (h : Keyed table.keySchema table.items)
    (hkey : KeyValues table.keySchema key) (hrows : table.loadMutableTableRows = .ok rows)
    (hall : rows.Perm table.items) (hread : table.getItemRows hash text key = some read) :
    row ∈ read ↔ row ∈ table.items ∧ KeyEq table.keySchema row key := by
  obtain ⟨files, hfiles, hperm⟩ := loadMutableTableRows_eq_ok hrows
  have hitems := hperm.symm.trans hall
  cases hspeedboat : table.checkpoint.speedboatFiles.asFileTuples with
  | none => simp [DynamoDbTable.getItemRows, hfiles, hspeedboat] at hread
  | some speedboatFiles =>
    by_cases hfast : files = [] ∨ speedboatFiles ≠ []
    · have hsql : read = (selectByKey table.keySchema key table.items).take 1 := by
        simp only [DynamoDbTable.getItemRows, hfiles, hspeedboat, Option.bind_eq_bind, Option.bind_some,
          executeCheckpointExactLookupBatchRows, cons_ne_nil, if_false, if_pos hfast, Option.some.injEq] at hread
        exact hread.symm
      have hsub : (selectByKey table.keySchema key table.items).Subperm table.items := filter_sublist.subperm
      rw [hsql, h.take_one hkey hsub fun row hrow => ((h.mem_selectByKey_iff hkey).mp hrow).2]
      exact h.mem_selectByKey_iff hkey
    · obtain ⟨hne, hnone⟩ := not_or.mp hfast
      rw [not_not.mp hnone] at hspeedboat
      have hencodes : ∀ name ∈ table.keySchema.fields, ∃ v k, key.lookup name = some v ∧
          encodeExactLookupKey v = some k := by
        intro name hname
        obtain ⟨v, hv, hvalue⟩ := hkey name hname
        obtain ⟨k, hk⟩ := exists_encode_of_isKeyValue hvalue
        exact ⟨v, k, hv, hk⟩
      obtain ⟨selected, hselected, hmem⟩ := getItemRows_of_iceberg hash text hencodes hfiles hne hspeedboat
      have hiff : ∀ row, row ∈ selected ↔ row ∈ table.items ∧ KeyEq table.keySchema row key := by
        intro row
        rw [hmem.mem_iff, rowsOfKey, mem_filter, hitems.mem_iff]
        refine and_congr_right fun hrow => ?_
        rw [keyEq_iff (h.values row hrow) hkey]
        simp
      have hsub : selected.Subperm table.items := (hmem.subperm.trans filter_sublist.subperm).trans hitems.subperm
      rw [← Option.some.inj (hselected.symm.trans hread),
        h.take_one hkey hsub fun row hrow => ((hiff row).mp hrow).2]
      exact hiff row

/-- **Primary keys over every history.** From a table whose items have distinct keys of strings and 64-bit
integers and are all loaded by writes, after any sequence of requests with such keys the items have
distinct keys again. For every such key, a write finds exactly the item whose key is equal, and so does a
read; the rows a write keeps are the items of other keys. -/
theorem keysUnique_of_writes {rt : DynamoRuntime} (hlaw : rt.Lawful) {table : DynamoDbTable}
    {calls : List WriteCall} (hkeys : Keyed table.keySchema table.items) (hload : table.LoadsAll)
    (hcalls : ∀ call ∈ calls, call.request.Keyed table.keySchema) :
    Keyed table.keySchema (table.writes rt calls).items ∧ ∀ key, KeyValues table.keySchema key → ∀ row,
        (∀ rows, (table.writes rt calls).loadMutableTableRows = .ok rows →
          ((splitRowsByKey rows table.keySchema key).1 = some row ↔
            row ∈ (table.writes rt calls).items ∧ KeyEq table.keySchema row key) ∧
          ∀ hash text read, (table.writes rt calls).getItemRows hash text key = some read →
            (row ∈ read ↔ row ∈ (table.writes rt calls).items ∧ KeyEq table.keySchema row key)) ∧
        (row ∈ selectByKey table.keySchema key (table.writes rt calls).items ↔
          row ∈ (table.writes rt calls).items ∧ KeyEq table.keySchema row key) := by
  have hinv : (table.writes rt calls).keySchema = table.keySchema ∧
      Keyed table.keySchema (table.writes rt calls).items ∧ (table.writes rt calls).LoadsAll := by
    refine List.foldlRecOn calls _ (motive := fun t : DynamoDbTable => t.keySchema = table.keySchema ∧
        Keyed table.keySchema t.items ∧ t.LoadsAll) ⟨rfl, hkeys, hload⟩ ?_
    rintro t ⟨hschema, ht, htload⟩ call hcall
    refine ⟨(keySchema_write rt t call).trans hschema, ?_, htload.write hlaw call⟩
    have hcallkeys := hcalls call hcall
    rw [← hschema] at ht hcallkeys ⊢
    exact ht.write hlaw hcallkeys
  obtain ⟨hschema, hafter, hloads⟩ := hinv
  refine ⟨hafter, fun key hkey row => ⟨fun rows hrows => ⟨?_, fun hash text read hread => ?_⟩,
    hafter.mem_selectByKey_iff hkey⟩⟩
  · have hperm := hloads rows hrows
    rw [(hafter.perm hperm).find_eq_some_iff hkey, hperm.mem_iff]
  · rw [← hschema] at hafter hkey ⊢
    exact hafter.mem_getItemRows hkey hrows (hloads rows hrows) hread

/-! ### A key in another notation -/

def idSchema : PowdrrSchema := ⟨[⟨"id", .integer⟩, ⟨"name", .string⟩]⟩

/-- A table of items with a number `id` as their key, all in one iceberg file. -/
def idTable (items : List JsonMap) : DynamoDbTable where
  config := ⟨"id", none, [], []⟩
  checkpoint :=
    { tableName := "people"
      checkpointId := "0"
      icebergMetadata := some
        { tableSchema := idSchema, snapshotId := none, files := .single "file:///people" 1 idSchema }
      schema := idSchema }
  files := Dict.single "file:///people" items

/-- The item of a person. -/
def person (id : Int) (name : String) : JsonMap := Dict.insertAll ∅ [("id", .int id), ("name", .string name)]

/-- The key of a request, with the number as it is written. -/
def idKey (text : String) : JsonMap := Dict.single "id" (.object [("N", .string text)])

def people : List JsonMap := [person 1 "ada", person 2 "bob"]

theorem keyed_people : Keyed (idTable people).keySchema (idTable people).items := by
  have hid : ∀ row ∈ people, row.lookup "id" = some (.int 1) ∨ row.lookup "id" = some (.int 2) := by decide +kernel
  refine ⟨fun row hrow name hname => ?_, pairwise_pair.mpr fun heq => ?_⟩
  · obtain rfl : name = "id" := mem_singleton.mp hname
    rcases hid row hrow with h | h
    · exact ⟨.int 1, h, rfl⟩
    · exact ⟨.int 2, h, rfl⟩
  · obtain ⟨_, _, ⟨⟩, ⟨⟩, heq⟩ := heq "id" (mem_singleton.mpr rfl)
    exact absurd heq (by decide)

/-- A new person, another name for a person, a batch of a delete and a put, and a delete. -/
def peopleCalls : List WriteCall :=
  [⟨.putItem { item := (idKey "3").insert "name" (.object [("S", .string "cyd")]) }, "1"⟩,
    ⟨.putItem { item := (idKey "1").insert "name" (.object [("S", .string "eve")]) }, "2"⟩,
    ⟨.batchWriteItem [⟨none, some (idKey "2")⟩,
      ⟨some ((idKey "4").insert "name" (.object [("S", .string "dan")])), none⟩], "3"⟩,
    ⟨.deleteItem { key := idKey "3" }, "4"⟩]

theorem keysUnique_of_writes_people :
    Keyed (idTable people).keySchema ((idTable people).writes .plain peopleCalls).items ∧
    ((idTable people).writes .plain peopleCalls).items.map (fun row => (row.lookup "id", row.lookup "name")) =
      [(some (.int 1), some (.string "eve")), (some (.int 4), some (.string "dan"))] := by
  have hids : ∀ call ∈ peopleCalls, ∀ parsed ∈ call.request.itemKeys (idTable people).keySchema,
      parsed.toOption.all fun key => (key.lookup "id").any Value.isKeyValue := by decide +kernel
  refine ⟨(keysUnique_of_writes DynamoRuntime.lawful_plain keyed_people ?_ ?_).1, by decide +kernel⟩
  · intro rows hrows
    obtain rfl : people = rows := ok.inj hrows
    exact List.Perm.refl _
  · intro call hcall key hkey name hname
    obtain rfl : name = "id" := mem_singleton.mp hname
    exact (Option.any_eq_true _ _).mp (hids call hcall (.ok key) hkey)

/-- **A key that misses its item.** The table has the persons 1 and 2. A delete of the key `1.0`, which is
equal to 1, is answered with success and deletes nothing, and a read of that key finds nothing, although SQL
finds the person. -/
theorem deleteItem_misses_equal_key : Keyed (idTable people).keySchema (idTable people).items ∧
    ∃ key, parseKeyMap (idKey "1.0") (idTable people).keySchema = .ok key ∧
      KeyEq (idTable people).keySchema (person 1 "ada") key ∧
      (∀ hash text, (idTable people).getItemRows hash text key = some []) ∧
      (selectByKey (idTable people).keySchema key (idTable people).items).length = 1 ∧
      ((idTable people).write .plain ⟨.deleteItem { key := idKey "1.0" }, "5"⟩).1 = .ok (.attributes none) ∧
      ((idTable people).write .plain ⟨.deleteItem { key := idKey "1.0" }, "5"⟩).2 = idTable people := by
  obtain ⟨key, hkey, ⟨v, hv, heq, hencodes⟩, hmissed, hselected⟩ :
      ∃ key, parseKeyMap (idKey "1.0") (idTable people).keySchema = .ok key ∧
        (∃ v, key.lookup "id" = some v ∧ dynamoEq (.int 1) v = true ∧ (encodeExactLookupKey v).isSome = true) ∧
        (rowsOfKey (idTable people).keySchema key people).length = 0 ∧
        (selectByKey (idTable people).keySchema key (idTable people).items).length = 1 := by
    decide +kernel
  refine ⟨keyed_people, key, hkey, ?_, fun hash text => ?_, hselected, by decide +kernel, ?_⟩
  · intro name hname
    obtain rfl : name = "id" := mem_singleton.mp hname
    exact ⟨.int 1, v, rfl, hv, heq⟩
  · obtain ⟨k, hk⟩ := Option.isSome_iff_exists.mp hencodes
    have hfiles : (idTable people).checkpoint.icebergFiles.asFileTuples = some [⟨"file:///people", idSchema, 1⟩] := rfl
    obtain ⟨selected, hread, hperm⟩ := getItemRows_of_iceberg hash text
      (fun name hname => ⟨v, k, by rw [mem_singleton.mp hname]; exact hv, hk⟩) hfiles (by simp) rfl
    have hnone : selected = [] := length_eq_zero_iff.mp (hperm.length_eq.trans hmissed)
    rw [hread, hnone, take_nil]
  have hplanned : ((idTable people).plannedRows .plain ⟨.deleteItem { key := idKey "1.0" }, "5"⟩).isNone = true := by
    decide +kernel
  have hok : succeeded ((idTable people).write .plain ⟨.deleteItem { key := idKey "1.0" }, "5"⟩).1 = true := by
    decide +kernel
  obtain ⟨rows, edited, -, -, hedited, hresult⟩ := write_cases hok
  rw [hedited] at hplanned
  rcases hresult with ⟨rows', rfl, -⟩ | ⟨-, hsame⟩
  · cases hplanned
  · exact hsame

end PowdrrEngine
