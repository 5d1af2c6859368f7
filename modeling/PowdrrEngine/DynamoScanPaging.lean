import PowdrrEngine.DynamoScan
import PowdrrEngine.DynamoUnique
import PowdrrEngine.LibMerge

/-! Reading a table to its end with Scan. A scan is complete for every limit exactly if the comparison that
merges the groups orders the keys as SQL does: two keys that are equal as doubles have to come from groups
in their order. -/

namespace PowdrrEngine

open TopK Paging List Run Std Ordering

/-! ### The order of keys -/

def scanKeyOrder : List String → ServingRow → ServingRow → Ordering
  | [], _, _ => .eq
  | field :: fields, left, right =>
    (exactOrder (sortKey field left) (sortKey field right)).then (scanKeyOrder fields left right)

def roundedKeyOrder : List String → ServingRow → ServingRow → Ordering
  | [], _, _ => .eq
  | field :: fields, left, right =>
    (columnOrder (sortKey field left) (sortKey field right)).then (roundedKeyOrder fields left right)

theorem transCmp_const_eq {α : Type*} : Std.TransCmp fun _ _ : α => Ordering.eq where
  eq_swap := rfl
  isLE_trans _ _ := rfl

instance transCmp_scanKeyOrder : ∀ fields, Std.TransCmp (scanKeyOrder fields)
  | [] => transCmp_const_eq
  | field :: fields =>
    have := transCmp_on (sortKey field) exactOrder
    have := transCmp_scanKeyOrder fields
    inferInstanceAs (Std.TransCmp (compareLex (fun a b => exactOrder (sortKey field a) (sortKey field b))
      (scanKeyOrder fields)))

instance transCmp_roundedKeyOrder : ∀ fields, Std.TransCmp (roundedKeyOrder fields)
  | [] => transCmp_const_eq
  | field :: fields =>
    have := transCmp_on (sortKey field) columnOrder
    have := transCmp_roundedKeyOrder fields
    inferInstanceAs (Std.TransCmp (compareLex (fun a b => columnOrder (sortKey field a) (sortKey field b))
      (roundedKeyOrder fields)))

def TypedFields (fields : List String) (rows : List ServingRow) : Prop :=
  ∀ field ∈ fields, ∃ type : ScalarType, ∀ row ∈ rows, type.has (sortKey field row) = true

section

variable {fields : List String} {rows : List ServingRow} {left right : ServingRow} {field : String}

theorem TypedFields.tail (h : TypedFields (field :: fields) rows) : TypedFields fields rows :=
  fun name hname => h name (mem_cons_of_mem _ hname)

theorem TypedFields.lookup (h : TypedFields fields rows) (hfield : field ∈ fields)
    (hleft : left ∈ rows) : left.lookup field = some (sortKey field left) := by
  obtain ⟨type, htype⟩ := h field hfield
  exact lookup_of_sortKey_ne_null (ScalarType.ne_null (htype left hleft))

section

variable (h : TypedFields fields rows) (hleft : left ∈ rows) (hright : right ∈ rows)

include h hleft hright

theorem sqlRowOrder_eq_scanKeyOrder :
    sqlRowOrder (fields.map fun field => ⟨field, false⟩) left right = scanKeyOrder fields left right := by
  induction fields with
  | nil => rfl
  | cons field fields ih =>
    obtain ⟨type, htype⟩ := h field mem_cons_self
    rw [map_cons, sqlRowOrder, scanKeyOrder, ih h.tail,
      sqlOrder_of_holds (Or.inr (htype left hleft)) (Or.inr (htype right hright))]
    rfl

theorem compareScanRows_eq_roundedKeyOrder {text : Value → String} :
    compareScanRows text left right fields = roundedKeyOrder fields left right := by
  induction fields with
  | nil => rfl
  | cons field fields ih =>
    obtain ⟨type, htype⟩ := h field mem_cons_self
    obtain ⟨kind, hkind⟩ := type.kind
    have hcmp := compareScalarValues_of_has (hkind _ (htype left hleft)) (hkind _ (htype right hright))
    rw [compareScanRows, roundedKeyOrder, ih h.tail, h.lookup mem_cons_self hleft,
      h.lookup mem_cons_self hright, compareScanRowField, hcmp, Option.getD_some]

theorem roundedKeyOrder_of_eq (heq : scanKeyOrder fields left right = .eq) :
    roundedKeyOrder fields left right = .eq := by
  induction fields with
  | nil => rfl
  | cons field fields ih =>
    obtain ⟨type, htype⟩ := h field mem_cons_self
    obtain ⟨kind, hkind⟩ := type.kind
    obtain ⟨hfirst, hrest⟩ := then_eq_eq.mp heq
    have hsql := sqlCompare_of_has (htype left hleft) (htype right hright)
    rw [hfirst] at hsql
    have hcmp := compareScalarValues_of_has (hkind _ (htype left hleft)) (hkind _ (htype right hright))
    have hcolumn : columnOrder (sortKey field left) (sortKey field right) = .eq := by
      rcases compareScalarValues_of_sqlCompare hsql with h' | h' <;>
        exact Option.some.inj (hcmp.symm.trans h')
    rw [roundedKeyOrder, hcolumn, ih h.tail hrest]
    rfl

end

theorem scanSqlLiteral_of_has {type : ScalarType} {value : Value} (h : type.has value = true) :
    scanSqlLiteral value = .ok value := by
  cases value <;> first | rfl | (cases type <;> cases h)

/-- **The start key clause.** It is true of the rows strictly behind the row whose key it was built of. -/
theorem exists_scanStartKeyClause {key : JsonMap} (h : TypedFields fields rows) (hleft : left ∈ rows)
    (hne : fields ≠ []) (hkey : ∀ field ∈ fields, key.lookup field = some (sortKey field left)) :
    ∃ clause, scanStartKeyClause key fields = .ok clause ∧
      ∀ row ∈ rows, clause.holds row = decide (scanKeyOrder fields left row = .lt) := by
  induction fields with
  | nil => exact absurd rfl hne
  | cons field fields ih =>
    obtain ⟨type, htype⟩ := h field mem_cons_self
    have hliteral := scanSqlLiteral_of_has (htype left hleft)
    have hlookup := hkey field mem_cons_self
    have hfirst : ∀ row ∈ rows, columnCompare row field (sortKey field left) =
        some (exactOrder (sortKey field left) (sortKey field row)).swap := by
      intro row hrow
      rw [columnCompare, h.lookup mem_cons_self hrow, Option.bind_some, sqlCompare_of_has (htype row hrow) (htype left hleft)]
      exact congrArg some OrientedCmp.eq_swap
    cases hfields : fields with
    | nil =>
      refine ⟨.after field (sortKey field left), ?_, fun row hrow => ?_⟩
      · simp only [scanStartKeyClause, hlookup, DynamoResult.ofOption, ok_bind, hliteral]
        rfl
      · rw [ScanClause.holds, hfirst row hrow, scanKeyOrder, scanKeyOrder]
        cases exactOrder (sortKey field left) (sortKey field row) <;> rfl
    | cons next rest =>
      rw [← hfields]
      obtain ⟨clause, hclause, hholds⟩ := ih h.tail (by simp [hfields]) fun name hname =>
        hkey name (mem_cons_of_mem _ hname)
      refine ⟨.afterOr field (sortKey field left) clause, ?_, fun row hrow => ?_⟩
      · simp only [scanStartKeyClause, hlookup, DynamoResult.ofOption, ok_bind, hliteral, hclause]
        rw [hfields]
        rfl
      · rw [ScanClause.holds, hfirst row hrow, hholds row hrow, scanKeyOrder]
        cases exactOrder (sortKey field left) (sortKey field row) <;> simp [Ordering.swap, Ordering.then]

end

/-! ### Scans that are read to their end -/

/-- A first scan of the files of a table, with what is assumed of the table and of the engine. Every item
has a string or a 64-bit integer for each key field, of one type for each field, and no two items have the
same primary key. The engine answers the query of each group of files, unless the query names a column that
the group does not have. -/
structure PagedScan where
  floatText : F64 → String
  text : Value → String
  answer : List FileDescriptor → ScanSql → DynamoResult (List ServingRow)
  config : DynamoDbTableConfig
  schema : PowdrrSchema
  files : List FileDescriptor
  fileRows : FileDescriptor → List ServingRow
  request : ScanRequest
  prepared : PreparedScan
  prepares : prepareScan config schema request = .ok prepared
  keyed : ∀ item ∈ files.flatMap fileRows, ∀ field ∈ prepared.orderFields,
    ∃ value, item.lookup field = some value ∧ value.isKeyValue = true
  typed : TypedFields prepared.orderFields (files.flatMap fileRows)
  unique : (files.flatMap fileRows).Pairwise fun left right =>
    ∃ field ∈ (primaryKeySchema config).fields, left.lookup field ≠ right.lookup field
  answers : ∀ group ∈ groupFilesBySchema files, ∀ sql : ScanSql, sql.select = prepared.select →
    sql.orderFields = prepared.orderFields →
      if NamesColumns prepared.select prepared.orderFields group then
        ∃ rows, answer group sql = .ok rows ∧ sql.IsResult (group.flatMap fileRows) rows
      else ∃ error, answer group sql = .error error

namespace PagedScan

variable (q : PagedScan)

def orderFields : List String := q.prepared.orderFields

def toKey (row : JsonMap) : DynamoResult JsonMap :=
  rowToKey q.floatText row q.prepared.target.keySchema (primaryKeySchema q.config)

def page (limit : Option Nat) (start : Option JsonMap) : DynamoResult ReadPage :=
  handleScan q.floatText q.text q.answer q.config q.schema q.files
    { q.request with limit := limit, exclusiveStartKey := start }

/-- The rows of some files, as they are returned. -/
def rowsOf (files : List FileDescriptor) : List ServingRow :=
  (files.flatMap q.fileRows).map (selectColumns q.prepared.select)

/-- The items of the table, as they are returned. -/
def rows : List ServingRow := q.rowsOf q.files

def groups : List (List ServingRow) := (groupFilesBySchema q.files).map q.rowsOf

def keyOrder (left right : ServingRow) : Ordering := scanKeyOrder q.orderFields left right

/-- Two rows with different places in the key order. -/
def Differ (left right : ServingRow) : Prop := q.keyOrder left right ≠ .eq

def itemsOf (rows : List ServingRow) : DynamoResult (List JsonMap) :=
  pageItems q.floatText q.prepared.selectMode
    (queryRequestedProjection q.request.projection q.prepared.selectMode)
    (applyFilterExpression rows q.request.filter)

/-- **Completeness.** The pages come to an end, their rows are the items of the table, each exactly once,
in key order; what is returned are the items of these rows. -/
def Complete (limit : Option Nat) : Prop :=
  ∃ pages, Pages (q.page limit) (fun page => page.response.lastEvaluatedKey) none pages ∧
    (pages.flatMap (·.evaluated)).Perm q.rows ∧ Sorted q.keyOrder (pages.flatMap (·.evaluated)) ∧
    q.itemsOf (pages.flatMap (·.evaluated)) = .ok (pages.flatMap (·.response.items))

def Returns (row : ServingRow) : Prop :=
  Returnable q.floatText q.request.filter q.prepared.selectMode
    (queryRequestedProjection q.request.projection q.prepared.selectMode) row

/-- **The order of the merge.** Of two items in key order the first does not come later for the comparison
that merges the groups, and where the comparison finds them equal it is in the same group or in an earlier
one. -/
def MergedInOrder : Prop :=
  ∀ left ∈ q.rows, ∀ right ∈ q.rows, q.keyOrder left right = .lt →
    compareScanRows q.text left right q.orderFields = .lt ∨ compareScanRows q.text left right q.orderFields = .eq ∧
        groupIndex q.groups left ≤ groupIndex q.groups right

/-- Every group of files has the columns that the scan selects and sorts by. -/
def HasColumns : Prop :=
  ∀ group ∈ groupFilesBySchema q.files, NamesColumns q.prepared.select q.prepared.orderFields group

section

variable {q} {last : Option ServingRow} {token : Option JsonMap} {row : ServingRow} {l group : List ServingRow}
  {firsts : List (List ServingRow)} {field : String} {limit : Option Nat} {all : List ServingRow}

/-! ### Keys of the items -/

theorem prepared_eq : q.orderFields = orderedKeyFields q.prepared.target.keySchema (primaryKeySchema q.config) ∧
    q.prepared.select = scanSelectFields (queryRequestedProjection q.request.projection q.prepared.selectMode)
      q.request.filter q.orderFields q.schema := by
  obtain ⟨_, -, h⟩ := exists_ok_of_bind q.prepares
  obtain ⟨_, -, h⟩ := exists_ok_of_bind h
  obtain ⟨_, -, h⟩ := exists_ok_of_bind h
  rw [orderFields, ← Except.ok.inj h]
  exact ⟨rfl, rfl⟩

theorem orderFields_ne_nil : q.orderFields ≠ [] := by
  rw [prepared_eq.1]
  simp [orderedKeyFields, labelledKeyFields]

theorem lookup_selectColumns (hfield : field ∈ q.orderFields) (item : ServingRow) :
    (selectColumns q.prepared.select item).lookup field = item.lookup field := by
  rw [prepared_eq.2]
  cases queryRequestedProjection q.request.projection q.prepared.selectMode with
  | none => rfl
  | some projection =>
    refine (lookup_projectFields (fun field => item.lookup field) _ ∅ field).trans ?_
    rw [if_pos, AList.lookup_empty, Option.or_none]
    rw [mem_foldl_appendSelectedFieldIfInSchema, mem_foldl_appendSelectedField]
    exact Or.inl (Or.inr hfield)

theorem sortKey_selectColumns (hfield : field ∈ q.orderFields) (item : ServingRow) :
    sortKey field (selectColumns q.prepared.select item) = sortKey field item := by
  rw [sortKey, lookup_selectColumns hfield, sortKey]

theorem keyOrder_selectColumns (left right : ServingRow) :
    q.keyOrder (selectColumns q.prepared.select left) (selectColumns q.prepared.select right) =
      q.keyOrder left right := by
  have hgen : ∀ fields, (∀ field ∈ fields, field ∈ q.orderFields) →
      scanKeyOrder fields (selectColumns q.prepared.select left) (selectColumns q.prepared.select right) =
        scanKeyOrder fields left right := by
    intro fields
    induction fields with
    | nil => exact fun _ => rfl
    | cons field fields ih =>
      intro hfields
      obtain ⟨hfield, hfields⟩ := forall_mem_cons.mp hfields
      rw [scanKeyOrder, scanKeyOrder, ih hfields, sortKey_selectColumns hfield, sortKey_selectColumns hfield]
  exact hgen q.orderFields fun _ h => h

theorem typed_rows : TypedFields q.orderFields q.rows := by
  intro field hfield
  obtain ⟨type, htype⟩ := q.typed field hfield
  refine ⟨type, fun row hrow => ?_⟩
  obtain ⟨item, hitem, rfl⟩ := mem_map.mp hrow
  rw [sortKey_selectColumns hfield]
  exact htype item hitem

theorem isKeyValue_row (hrow : row ∈ q.rows) (hfield : field ∈ q.orderFields) :
    ∃ value, row.lookup field = some value ∧ value.isKeyValue = true := by
  obtain ⟨item, hitem, rfl⟩ := mem_map.mp hrow
  rw [lookup_selectColumns hfield]
  exact q.keyed item hitem field hfield

theorem unique_rows : q.rows.Pairwise q.Differ := by
  refine pairwise_map.mpr (q.unique.imp_of_mem fun {left right} hleft hright hne heq => ?_)
  rw [keyOrder_selectColumns] at heq
  obtain ⟨field, hfield, hne⟩ := hne
  have hmem : field ∈ q.orderFields := by
    rw [prepared_eq.1]
    exact mem_orderedKeyFields_table hfield
  have hfieldEq : ∀ fields, field ∈ fields → scanKeyOrder fields left right = .eq →
      exactOrder (sortKey field left) (sortKey field right) = .eq := by
    intro fields
    induction fields with
    | nil => exact fun h => absurd h (by simp)
    | cons other fields ih =>
      intro hmem heq
      obtain ⟨hfirst, hrest⟩ := then_eq_eq.mp heq
      rcases mem_cons.mp hmem with rfl | hmem
      · exact hfirst
      · exact ih hmem hrest
  obtain ⟨value, hvalue, hkey⟩ := q.keyed left hleft field hmem
  obtain ⟨value', hvalue', hkey'⟩ := q.keyed right hright field hmem
  obtain ⟨type, htype⟩ := q.typed field hmem
  have hcmp := sqlCompare_of_has (htype left hleft) (htype right hright)
  rw [hfieldEq q.orderFields hmem heq, sortKey, sortKey, hvalue, hvalue'] at hcmp
  have hsame : value = value' := (sqlCompare_isEq_iff hkey hkey').mp (by
    rw [show sqlCompare value value' = some .eq from hcmp]
    rfl)
  exact hne (by rw [hvalue, hvalue', hsame])

theorem groups_perm : q.groups.flatten.Perm q.rows := by
  have hflatten : q.groups.flatten =
      ((groupFilesBySchema q.files).flatten.flatMap q.fileRows).map (selectColumns q.prepared.select) := by
    unfold groups
    induction groupFilesBySchema q.files with
    | nil => rfl
    | cons group groups ih =>
      rw [map_cons, flatten_cons, ih, flatten_cons, flatMap_append, map_append]
      rfl
  rw [hflatten]
  exact ((groupFilesBySchema_perm q.files).flatMap_right _).map _

/-! ### What is read for a page -/

def later (q : PagedScan) (last row : ServingRow) : Bool := q.keyOrder last row = .lt

instance : Std.TransCmp q.keyOrder := transCmp_scanKeyOrder q.orderFields

theorem strict_later : Strict q.keyOrder q.later where
  lt h := of_decide_eq_true h
  trans hab hbc := decide_eq_true (TransCmp.lt_trans (of_decide_eq_true hab) (of_decide_eq_true hbc))
  congr_left h := by rw [later, later, TransCmp.congr_left h]
  congr_right h := by rw [later, later, TransCmp.congr_right h]

def Stands (q : PagedScan) : Option JsonMap → Option ServingRow → Prop
  | none, none => True
  | some key, some row => row ∈ q.rows ∧ q.toKey row = .ok key
  | _, _ => False

/-- What is left of each group behind a row. -/
def left (q : PagedScan) (last : Option ServingRow) : List (List ServingRow) :=
  q.groups.map fun group => rest q.later group last

theorem exists_toKey (hrow : row ∈ q.rows) : ∃ key, q.toKey row = .ok key := by
  refine exists_rowToKey fun field hfield => ?_
  rw [← prepared_eq.1] at hfield
  obtain ⟨value, hvalue, hkey⟩ := isKeyValue_row hrow hfield
  exact ⟨value, hvalue, readsBack_of_isKeyValue _ hkey⟩

theorem exists_sql (hstands : q.Stands token last) (limit : Nat) :
    ∃ start sql, scanStartKey q.config q.prepared.target token = .ok start ∧
      buildScanSql q.prepared.select start q.orderFields limit = .ok sql ∧ sql.select = q.prepared.select ∧
      sql.orderFields = q.orderFields ∧ sql.limit = limit ∧
      ∀ item ∈ q.files.flatMap q.fileRows, sql.start.all (·.holds item) =
        last.all fun last => q.later last (selectColumns q.prepared.select item) := by
  match token, last, hstands with
  | none, none, _ => exact ⟨none, _, rfl, rfl, rfl, rfl, rfl, fun _ _ => rfl⟩
  | some key, some row, ⟨hrow, hkey⟩ =>
    obtain ⟨parsed, hparsed, hlookup⟩ := exists_parse_of_keyOf (keyOf_rowToKey hkey) fun field hfield value hvalue => by
      rw [← prepared_eq.1] at hfield
      obtain ⟨value', hvalue', hkeyValue⟩ := isKeyValue_row hrow hfield
      cases hvalue.symm.trans hvalue'
      exact readsBack_of_isKeyValue _ hkeyValue
    rw [← prepared_eq.1] at hlookup
    obtain ⟨item', hitem', rfl⟩ := mem_map.mp hrow
    have hlookup' : ∀ field ∈ q.orderFields, parsed.lookup field = some (sortKey field item') := by
      intro field hfield
      rw [hlookup field hfield, lookup_selectColumns hfield]
      exact q.typed.lookup hfield hitem'
    obtain ⟨clause, hclause, hholds⟩ := exists_scanStartKeyClause q.typed hitem' orderFields_ne_nil hlookup'
    refine ⟨some parsed, ⟨q.prepared.select, some clause, q.orderFields, limit⟩, ?_, ?_, rfl, rfl, rfl, ?_⟩
    · rw [scanStartKey, hparsed]
      rfl
    · rw [buildScanSql, show scanStartKeyClause parsed q.orderFields = .ok clause from hclause]
      rfl
    · intro item hitem
      rw [Option.all_some, Option.all_some, hholds item hitem, later, keyOrder_selectColumns]
      rfl

theorem isFirst_of_isResult {sql : ScanSql} {files : List FileDescriptor} {rows : List ServingRow}
    (hselect : sql.select = q.prepared.select) (horder : sql.orderFields = q.orderFields)
    (hfiles : ∀ file ∈ files, file ∈ q.files)
    (hstart : ∀ item ∈ q.files.flatMap q.fileRows, sql.start.all (·.holds item) =
        last.all fun last => q.later last (selectColumns q.prepared.select item))
    (h : sql.IsResult (files.flatMap q.fileRows) rows) :
    IsFirst q.keyOrder sql.limit (rest q.later (q.rowsOf files) last) rows := by
  obtain ⟨selected, hperm, hsorted, rfl⟩ := h
  have hitems : ∀ item ∈ files.flatMap q.fileRows, item ∈ q.files.flatMap q.fileRows := by
    intro item hitem
    obtain ⟨file, hfile, hitem⟩ := mem_flatMap.mp hitem
    exact mem_flatMap_of_mem (hfiles file hfile) hitem
  have hselected : ∀ item ∈ selected, item ∈ q.files.flatMap q.fileRows := fun item hitem =>
    hitems item (mem_of_mem_filter (hperm.mem_iff.mp hitem))
  refine ⟨selected.map (selectColumns q.prepared.select), ?_, ?_, ?_⟩
  · have hrest : rest q.later (q.rowsOf files) last =
        ((files.flatMap q.fileRows).filter fun item => sql.start.all (·.holds item)).map
          (selectColumns q.prepared.select) := by
      have hfilter : ((files.flatMap q.fileRows).filter fun item => sql.start.all (·.holds item)) =
          (files.flatMap q.fileRows).filter
            fun item => last.all fun last => q.later last (selectColumns q.prepared.select item) :=
        filter_congr fun item hitem => hstart item (hitems item hitem)
      rw [hfilter]
      cases last with
      | none => simp [rest, rowsOf]
      | some last => simp [rest, rowsOf, filter_map, Function.comp_def]
    rw [hrest]
    exact hperm.map _
  · refine pairwise_map.mpr (hsorted.imp_of_mem fun {left right} hleft hright hle => ?_)
    have hsame := sqlRowOrder_eq_scanKeyOrder q.typed (hselected left hleft) (hselected right hright)
    rw [horder, orderFields, hsame] at hle
    rw [keyOrder_selectColumns, isLE_iff_ne_gt]
    exact hle
  · rw [hselect, map_take]

/-- The comparison that merges the groups. -/
def mergeOrder (q : PagedScan) (left right : ServingRow) : Ordering := roundedKeyOrder q.orderFields left right

instance : Std.TransCmp q.mergeOrder := transCmp_roundedKeyOrder q.orderFields

theorem compareScanRows_eq {left right : ServingRow} (hleft : left ∈ q.rows) (hright : right ∈ q.rows) :
    compareScanRows q.text left right q.orderFields = q.mergeOrder left right :=
  compareScanRows_eq_roundedKeyOrder typed_rows hleft hright

theorem mem_rows_of_rest (hgroup : group ∈ q.groups) (hrow : row ∈ rest q.later group last) : row ∈ q.rows :=
  groups_perm.mem_iff.mp (mem_flatten_of_mem hgroup (mem_of_mem_rest hrow))

/-- **What is read for a page.** The first rows that are left of each group, merged. -/
theorem exists_executeScanQuery (hcolumns : q.HasColumns) (hstands : q.Stands token last) (limit : Nat) :
    ∃ start firsts, scanStartKey q.config q.prepared.target token = .ok start ∧
      List.Forall₂ (IsFirst q.keyOrder limit) (q.left last) firsts ∧
      executeScanQuery q.text q.answer q.files q.prepared.select start q.orderFields limit =
        .ok (mergeAll q.mergeOrder limit [] firsts) := by
  obtain ⟨start, sql, hstart, hsql, hselect, horder, rfl, hholds⟩ := exists_sql hstands limit
  have hfold : ∀ groups : List (List FileDescriptor), (∀ group ∈ groups, group ∈ groupFilesBySchema q.files) →
      ∀ merged : List ServingRow,
      ∃ firsts, List.Forall₂ (IsFirst q.keyOrder sql.limit)
          ((groups.map q.rowsOf).map fun group => rest q.later group last) firsts ∧
        groups.foldlM (fun rows group =>
            (q.answer group sql).map (mergeScanRows q.text q.orderFields sql.limit rows)) merged =
          .ok (mergeAll (fun left right => compareScanRows q.text left right q.orderFields) sql.limit merged
            firsts) := by
    intro groups
    induction groups with
    | nil => exact fun _ merged => ⟨[], .nil, rfl⟩
    | cons group groups ih =>
      intro hgroups merged
      obtain ⟨hgroup, hgroups⟩ := forall_mem_cons.mp hgroups
      have hanswers := q.answers group hgroup sql hselect horder
      rw [if_pos (hcolumns group hgroup)] at hanswers
      obtain ⟨rows, hrows, hresult⟩ := hanswers
      obtain ⟨firsts, hfirsts, hrest⟩ := ih hgroups (mergeScanRows q.text q.orderFields sql.limit merged rows)
      have hfiles : ∀ file ∈ group, file ∈ q.files := fun _ => mem_of_mem_groupFilesBySchema hgroup
      refine ⟨rows :: firsts, .cons (isFirst_of_isResult hselect horder hfiles hholds hresult) hfirsts, ?_⟩
      rw [foldlM_cons, hrows]
      exact hrest
  obtain ⟨firsts, hfirsts, hrun⟩ := hfold (groupFilesBySchema q.files) (fun _ h => h) []
  refine ⟨start, firsts, hstart, hfirsts, ?_⟩
  have hmem : ∀ first ∈ firsts, first ⊆ q.rows := by
    intro first hfirst row hrow
    obtain ⟨group, hgroup, hisFirst⟩ := Lists.exists_mem_of_forall₂ hfirsts hfirst
    obtain ⟨whole, hwhole, rfl⟩ := mem_map.mp hgroup
    exact mem_rows_of_rest hwhole (hisFirst.mem hrow)
  rw [← mergeAll_congr (fun left hleft right hright => compareScanRows_eq hleft hright) (nil_subset _) hmem,
    executeScanQuery, hsql]
  exact hrun

theorem prepares_page (limit : Option Nat) (token : Option JsonMap) : prepareScan q.config q.schema
    { q.request with limit := limit, exclusiveStartKey := token } = .ok q.prepared := q.prepares

/-- **A page of the scan.** -/
theorem exists_page_eq (hcolumns : q.HasColumns) (hstands : q.Stands token last) (limit : Option Nat) :
    ∃ firsts, List.Forall₂ (IsFirst q.keyOrder (pageLimitOf limit + 1)) (q.left last) firsts ∧
      q.page limit token = readPage q.floatText q.toKey (pageLimitOf limit) false q.request.filter
        q.prepared.selectMode (queryRequestedProjection q.request.projection q.prepared.selectMode)
        (mergeAll q.mergeOrder (pageLimitOf limit + 1) [] firsts) := by
  obtain ⟨start, firsts, hstart, hfirsts, hrun⟩ := exists_executeScanQuery hcolumns hstands (pageLimitOf limit + 1)
  refine ⟨firsts, hfirsts, ?_⟩
  rw [page, handleScan, prepares_page, ok_bind, hstart, ok_bind]
  exact congrArg (· >>= _) hrun

theorem itemsOf_evaluated {page : ReadPage}
    (h : q.page limit token = .ok page) : q.itemsOf page.evaluated = .ok page.response.items := by
  rw [PagedScan.page, handleScan, prepares_page, ok_bind] at h
  obtain ⟨_, -, h⟩ := exists_ok_of_bind h
  obtain ⟨_, -, h⟩ := exists_ok_of_bind h
  exact (readPage_eq_ok (by simp only [pageLimitOf]; omega) h).2.1

theorem rest_groups_perm (last : Option ServingRow) : (q.left last).flatten.Perm (rest q.later q.rows last) := by
  cases last with
  | none =>
    rw [show q.left none = q.groups from map_id _]
    exact groups_perm
  | some last =>
    have hfilter : (q.left (some last)).flatten = q.groups.flatten.filter (q.later last) := filter_flatten.symm
    rw [hfilter]
    exact groups_perm.filter _

/-! ### Groups that are merged in order -/

theorem unique_of_perm (hall : all.Pairwise q.Differ) (hperm : l.Perm all) : l.Pairwise q.Differ :=
  (hperm.pairwise_iff fun h heq => h (OrientedCmp.eq_comm.mp heq)).mpr hall

theorem strict_of_sorted (hall : all.Pairwise q.Differ) (hperm : l.Perm all)
    (hl : Sorted q.keyOrder l) : l.Pairwise fun left right => q.keyOrder left right = .lt := by
  refine (hl.and (unique_of_perm hall hperm)).imp fun h => ?_
  rcases isLE_iff_eq_lt_or_eq_eq.mp h.1 with hlt | heq
  · exact hlt
  · exact absurd heq h.2

theorem unique_rest (last : Option ServingRow) : (rest q.later q.rows last).Pairwise q.Differ := by
  cases last with
  | none => exact unique_rows
  | some last => exact unique_rows.sublist filter_sublist

theorem unique_rest_group (hgroup : group ∈ q.left last) : group.Pairwise q.Differ :=
  (unique_of_perm (unique_rest last) (rest_groups_perm last)).sublist (sublist_flatten_of_mem hgroup)

theorem groups_disjoint : q.groups.Pairwise List.Disjoint := by
  have hnodup : q.groups.flatten.Nodup := by
    refine groups_perm.nodup_iff.mpr (unique_rows.imp fun hne heq => hne ?_)
    rw [heq]
    exact ReflCmp.compare_self
  exact (nodup_flatten.mp hnodup).2

section

variable (hmerged : q.MergedInOrder)

include hmerged

theorem MergedInOrder.isLE {left right : ServingRow} (hleft : left ∈ q.rows) (hright : right ∈ q.rows)
    (hle : (q.keyOrder left right).isLE = true) : (q.mergeOrder left right).isLE = true := by
  rcases isLE_iff_eq_lt_or_eq_eq.mp hle with hlt | heq
  · rw [← compareScanRows_eq hleft hright]
    rcases hmerged left hleft right hright hlt with h | ⟨h, -⟩ <;> rw [h] <;> rfl
  · rw [show q.mergeOrder left right = .eq from roundedKeyOrder_of_eq typed_rows hleft hright heq]
    rfl

theorem MergedInOrder.agrees (last : Option ServingRow) : (q.left last).Pairwise (Agrees q.keyOrder q.mergeOrder) := by
  refine pairwise_map.mpr ((groupIndex_pairwise groups_disjoint).imp_of_mem ?_)
  intro earlier later hearlier hlater hindex left hleft right hright
  have hleft' := mem_rows_of_rest hearlier hleft
  have hright' := mem_rows_of_rest hlater hright
  refine ⟨hmerged.isLE hleft' hright', fun hle => ?_⟩
  rw [isLE_iff_ne_gt]
  intro hgt
  -- then the row of the later group would come first and win the tie
  have hback := hmerged right hright' left hleft' (OrientedCmp.lt_of_gt hgt)
  rw [compareScanRows_eq hright' hleft'] at hback
  rcases hback with hlt | ⟨-, hindex'⟩
  · rw [OrientedCmp.gt_of_lt hlt] at hle
    cases hle
  · exact absurd (hindex left (mem_of_mem_rest hleft) right (mem_of_mem_rest hright)) (Nat.not_lt.mpr hindex')

theorem MergedInOrder.isFirst {limit : Nat} (hfirsts : List.Forall₂ (IsFirst q.keyOrder limit) (q.left last) firsts) :
    IsFirst q.keyOrder limit (rest q.later q.rows last) (mergeAll q.mergeOrder limit [] firsts) := by
  have hmem : ∀ row ∈ [] ++ (q.left last).flatten, row ∈ q.rows := by
    intro row hrow
    exact mem_of_mem_rest ((rest_groups_perm last).mem_iff.mp hrow)
  have hfirst := isFirst_mergeAll hfirsts isFirst_nil
    (fun left hleft right hright => hmerged.isLE (hmem left hleft) (hmem right hright))
    (pairwise_cons.mpr ⟨fun _ _ _ h => absurd h not_mem_nil, hmerged.agrees last⟩)
  exact hfirst.perm (rest_groups_perm last)

/-- **A scan that merges in order** pages through the first rows of what is left. -/
theorem MergedInOrder.pager (hcolumns : q.HasColumns) (hreturns : ∀ row ∈ q.rows, q.Returns row) (limit : Option Nat) :
    Pager (q.page limit) (fun page => page.response.lastEvaluatedKey) (·.evaluated) q.keyOrder q.later
      (pageLimitOf limit) q.rows q.Stands := by
  have hpos : 0 < pageLimitOf limit := by rw [pageLimitOf]; omega
  refine ⟨trivial, fun token last hstands => ?_⟩
  obtain ⟨firsts, hfirsts, hpage⟩ := exists_page_eq hcolumns hstands limit
  have hread := hmerged.isFirst hfirsts
  have hfirst := hread.take (Nat.le_succ _)
  have hmem : ∀ row ∈ (mergeAll q.mergeOrder (pageLimitOf limit + 1) [] firsts).take (pageLimitOf limit),
      row ∈ q.rows := fun row hrow => mem_of_mem_rest (hfirst.mem hrow)
  obtain ⟨page, hread'⟩ : ∃ page, readPage q.floatText q.toKey (pageLimitOf limit) false q.request.filter
      q.prepared.selectMode (queryRequestedProjection q.request.projection q.prepared.selectMode)
      (mergeAll q.mergeOrder (pageLimitOf limit + 1) [] firsts) = .ok page :=
    exists_readPage hpos (fun row hrow => hreturns row (hmem row hrow))
      fun _ row hrow => exists_toKey (hmem row hrow)
  obtain ⟨hevaluated, -, hdone, hmore⟩ := readPage_eq_ok hpos hread'
  have hlength := hread.length_eq
  refine ⟨page, hpage.trans hread', hevaluated ▸ hfirst, fun hnone => ?_, fun key hkey => ?_⟩
  · by_contra hlt
    exact hdone.mp hnone (Or.inl (by omega))
  obtain ⟨hmore', row, hlast, hto⟩ := hmore key hkey
  refine ⟨?_, fun x hx => ?_⟩
  · rcases hmore' with h | ⟨-, h⟩
    · omega
    · cases h
  · cases hlast.symm.trans hx
    exact ⟨hmem row (hevaluated ▸ mem_of_getLast? hlast), hto⟩

theorem MergedInOrder.complete (hcolumns : q.HasColumns) (hreturns : ∀ row ∈ q.rows, q.Returns row)
    (limit : Option Nat) : q.Complete limit := by
  have hpos : 0 < pageLimitOf limit := by rw [pageLimitOf]; omega
  have hpager := hmerged.pager hcolumns hreturns limit
  have hapart : Apart q.later (pageLimitOf limit) (TopK.sort q.keyOrder q.rows) := by
    have hstrict := strict_of_sorted unique_rows (perm_insertionSort _ _) (sorted_sort q.rows)
    exact apart_of_pairwise hpos (hstrict.imp fun h => decide_eq_true h)
  obtain ⟨pages, hpages, hout, hsorted⟩ := (hpager.complete_iff strict_later hpos).mpr hapart
  refine ⟨pages, hpages, hout, hsorted, pageItems_flatMap (hpages.forall_mem fun _ _ => itemsOf_evaluated)⟩

end

/-! ### Scans that are complete -/

theorem returns_of_complete (h : q.Complete limit) : ∀ row ∈ q.rows, q.Returns row := by
  obtain ⟨pages, -, hperm, -, hitems⟩ := h
  intro row hrow
  exact pageItems_isOk_iff.mp ⟨_, hitems⟩ row (hperm.mem_iff.mpr hrow)

/-- The merge keeps a row before another one. -/
def Kept (q : PagedScan) (left right : ServingRow) : Prop :=
  q.mergeOrder left right = .lt ∨ q.mergeOrder left right = .eq ∧ groupIndex q.groups left ≤ groupIndex q.groups right

instance : IsTrans ServingRow q.Kept where
  trans _ _ _ := by
    rintro (hab | ⟨hab, hle⟩) (hbc | ⟨hbc, hle'⟩)
    · exact Or.inl (Std.TransCmp.lt_trans hab hbc)
    · exact Or.inl (Std.TransCmp.lt_of_lt_of_eq hab hbc)
    · exact Or.inl (Std.TransCmp.lt_of_eq_of_lt hab hbc)
    · exact Or.inr ⟨Std.TransCmp.eq_trans hab hbc, hle.trans hle'⟩

theorem keyOrder_self_ne (row : ServingRow) : q.keyOrder row row ≠ .lt := by
  have heq : q.keyOrder row row = .eq := ReflCmp.compare_self
  rw [heq]
  decide

section

variable {first second : ServingRow} (hfirsts : List.Forall₂ (IsFirst q.keyOrder 2) (q.left last) firsts)
  (hperm : (first :: second :: l).Perm (rest q.later q.rows last))
  (hstrict : (first :: second :: l).Pairwise fun left right => q.keyOrder left right = .lt)

include hfirsts hperm hstrict

theorem mem_firsts_of_second : second ∈ firsts.flatten := by
  have hsecond : second ∈ (q.left last).flatten := (rest_groups_perm last).mem_iff.mpr (hperm.mem_iff.mp (by simp))
  obtain ⟨group, hgroup, hmem⟩ := mem_flatten.mp hsecond
  obtain ⟨part, hpart, sorted, hsorted, horder, rfl⟩ := Lists.exists_right_of_forall₂ hfirsts hgroup
  refine mem_flatten_of_mem hpart ?_
  -- only the first row comes before the second
  have hbefore : ∀ row ∈ group, q.keyOrder row second = .lt → row = first := by
    intro row hrow hlt
    have hrow' := hperm.mem_iff.mpr ((rest_groups_perm last).mem_iff.mp (mem_flatten_of_mem hgroup hrow))
    rcases mem_cons.mp hrow' with rfl | hrow'
    · rfl
    rcases mem_cons.mp hrow' with rfl | hrow'
    · exact absurd hlt (keyOrder_self_ne row)
    · have hgt := (pairwise_cons.mp (pairwise_cons.mp hstrict).2).1 row hrow'
      rw [OrientedCmp.gt_of_lt hgt] at hlt
      cases hlt
  have hsorted' := strict_of_sorted (unique_rest_group hgroup) hsorted horder
  have hmem' := hsorted.mem_iff.mpr hmem
  match sorted with
  | [] => exact hmem'
  | [_] => exact hmem'
  | left :: right :: others =>
    obtain ⟨hleft, hrest⟩ := pairwise_cons.mp hsorted'
    obtain ⟨hright, -⟩ := pairwise_cons.mp hrest
    rcases mem_cons.mp hmem' with rfl | hmem'
    · exact mem_cons_self
    rcases mem_cons.mp hmem' with rfl | hmem'
    · exact mem_cons_of_mem _ mem_cons_self
    have hleft' := hbefore left (hsorted.mem_iff.mp (by simp))
      (hleft second (mem_cons_of_mem _ hmem'))
    have hright' := hbefore right (hsorted.mem_iff.mp (by simp)) (hright second hmem')
    have hlt := hleft right mem_cons_self
    rw [hleft', hright'] at hlt
    exact absurd hlt (keyOrder_self_ne first)

theorem kept_of_read (hhead : (mergeAll q.mergeOrder 2 [] firsts).head? = some first) : q.Kept first second := by
  have hsecond := mem_firsts_of_second hfirsts hperm hstrict
  have hstart : LeastFirst q.mergeOrder ([] : List ServingRow) [] := ⟨fun _ => rfl, .nil, nofun⟩
  have hleast := (leastFirst_mergeAll (by decide : 0 < 2) hstart).head first hhead
  rw [nil_append] at hleast
  rcases isLE_iff_eq_lt_or_eq_eq.mp (hleast.isLE hsecond) with hlt | heq
  · exact Or.inl hlt
  refine Or.inr ⟨heq, ?_⟩
  obtain ⟨front, back, hsplit, hfront, -⟩ := hleast
  have hparts : List.Forall₂ (fun group part => part ⊆ group) q.groups firsts :=
    (forall₂_map_left_iff.mp hfirsts).imp fun _ _ h _ hrow => mem_of_mem_rest (h.mem hrow)
  have hdisjoint : firsts.Pairwise List.Disjoint := disjoint_parts groups_disjoint hparts
  have hback : second ∈ back := by
    rw [hsplit] at hsecond
    rcases mem_append.mp hsecond with hmem | hmem
    · rw [hfront second hmem] at heq
      cases heq
    rcases mem_cons.mp hmem with rfl | hmem
    · exact absurd ((pairwise_cons.mp hstrict).1 second mem_cons_self) (keyOrder_self_ne second)
    · exact hmem
  have hfirst : first ∈ firsts.flatten := by
    rw [hsplit]
    exact mem_append_right _ mem_cons_self
  rw [← groupIndex_parts groups_disjoint hparts hfirst, ← groupIndex_parts groups_disjoint hparts hsecond]
  exact groupIndex_le_of_flatten hdisjoint hsplit hback

end

/-- **A complete scan, one row at a time,** keeps the rows in order. By induction on the pages: each page
holds the first row that is left, and the next row was read with it. -/
theorem isChain_of_pages (hcolumns : q.HasColumns) {pages : List ReadPage}
    (h : Pages (q.page (some 1)) (fun page => page.response.lastEvaluatedKey) token pages) :
    ∀ last, q.Stands token last → (pages.flatMap (·.evaluated)).Perm (rest q.later q.rows last) →
      Sorted q.keyOrder (pages.flatMap (·.evaluated)) → (pages.flatMap (·.evaluated)).IsChain q.Kept := by
  induction h with
  | last hfetch hnext =>
    intro last hstands _ _
    obtain ⟨firsts, -, hpage⟩ := exists_page_eq hcolumns hstands (some 1)
    obtain ⟨hevaluated, -⟩ := readPage_eq_ok (by decide) (hpage.symm.trans hfetch)
    rw [flatMap_singleton, hevaluated, show pageLimitOf (some 1) = 1 from rfl]
    cases mergeAll q.mergeOrder (1 + 1) [] firsts with
    | nil => exact .nil
    | cons row rows => exact .singleton row
  | more hfetch hnext hpages ih =>
    rename_i token page key pages
    intro last hstands hperm hsorted
    obtain ⟨firsts, hfirsts, hpage⟩ := exists_page_eq hcolumns hstands (some 1)
    obtain ⟨hevaluated, -, -, hmore⟩ := readPage_eq_ok (by decide) (hpage.symm.trans hfetch)
    obtain ⟨-, first, hlast, hto⟩ := hmore _ hnext
    have hpageRows : page.evaluated = [first] ∧ (mergeAll q.mergeOrder 2 [] firsts).head? = some first := by
      rw [hevaluated, show pageLimitOf (some 1) = 1 from rfl] at hlast ⊢
      cases hrows : mergeAll q.mergeOrder (1 + 1) [] firsts with
      | nil =>
        rw [hrows] at hlast
        cases hlast
      | cons row rows =>
        rw [hrows] at hlast
        cases hlast
        exact ⟨rfl, rfl⟩
    obtain ⟨hone, hhead⟩ := hpageRows
    rw [flatMap_cons, hone, singleton_append] at hperm hsorted ⊢
    have hstrict := strict_of_sorted (unique_rest last) hperm hsorted
    have hfirst : first ∈ rest q.later q.rows last := hperm.mem_iff.mp mem_cons_self
    have hleft : (pages.flatMap (·.evaluated)).Perm (rest q.later q.rows (some first)) := by
      rw [rest_of_mem strict_later hfirst]
      have hfilter := hperm.filter (q.later first)
      have hself : q.later first first = false := not_beyond_of_isLE strict_later (isLE_self first)
      rw [filter_cons, hself, if_neg Bool.false_ne_true, filter_eq_self.mpr] at hfilter
      · exact hfilter
      · exact fun row hrow => decide_eq_true ((pairwise_cons.mp hstrict).1 row hrow)
    have hchain := ih (some first) ⟨mem_of_mem_rest hfirst, hto⟩ hleft (pairwise_cons.mp hsorted).2
    cases hrest : pages.flatMap (·.evaluated) with
    | nil => exact .singleton first
    | cons second others =>
      rw [hrest] at hperm hstrict hchain
      exact .cons_cons (kept_of_read hfirsts hperm hstrict hhead) hchain

theorem exists_answers {sql : ScanSql} {groups : List (List FileDescriptor)} {merged rows : List ServingRow}
    (h : groups.foldlM (fun rows group =>
      (q.answer group sql).map (mergeScanRows q.text q.orderFields sql.limit rows)) merged = .ok rows) :
    ∀ group ∈ groups, ∃ answered, q.answer group sql = .ok answered := by
  induction groups generalizing merged with
  | nil => exact fun _ hgroup => absurd hgroup not_mem_nil
  | cons group groups ih =>
    obtain ⟨merged', hfirst, hrest⟩ := exists_ok_of_bind h
    obtain ⟨answered, hanswered, -⟩ := map_eq_ok.mp hfirst
    exact forall_mem_cons.mpr ⟨⟨answered, hanswered⟩, ih hrest⟩

/-- A scan that succeeds has an answer of every group. -/
theorem hasColumns_of_complete (h : q.Complete limit) : q.HasColumns := by
  obtain ⟨pages, hpages, -⟩ := h
  obtain ⟨page, hpage⟩ : ∃ page, q.page limit none = .ok page := by
    cases hpages with
    | last hfetch _ => exact ⟨_, hfetch⟩
    | more hfetch _ _ => exact ⟨_, hfetch⟩
  rw [PagedScan.page, handleScan, prepares_page, ok_bind] at hpage
  obtain ⟨start, hstart, hpage⟩ := exists_ok_of_bind hpage
  cases hstart
  obtain ⟨rows, hrows, -⟩ := exists_ok_of_bind hpage
  intro group hgroup
  obtain ⟨answered, hanswered⟩ := exists_answers hrows group hgroup
  by_contra hlacks
  have herror := q.answers group hgroup ⟨q.prepared.select, none, q.orderFields, pageLimitOf limit + 1⟩ rfl rfl
  rw [if_neg hlacks] at herror
  obtain ⟨error, herror⟩ := herror
  cases hanswered.symm.trans herror

theorem mergedInOrder_of_complete (h : q.Complete (some 1)) : q.MergedInOrder := by
  have hcolumns := hasColumns_of_complete h
  obtain ⟨pages, hpages, hperm, hsorted, -⟩ := h
  have hkept : (pages.flatMap (·.evaluated)).Pairwise q.Kept :=
    isChain_iff_pairwise.mp (isChain_of_pages hcolumns hpages none trivial hperm hsorted)
  intro left hleft right hright hlt
  rw [compareScanRows_eq hleft hright]
  have hboth := hsorted.and hkept
  obtain ⟨i, hi, rfl⟩ := getElem_of_mem (hperm.mem_iff.mpr hleft)
  obtain ⟨j, hj, rfl⟩ := getElem_of_mem (hperm.mem_iff.mpr hright)
  rcases Nat.lt_trichotomy i j with hij | rfl | hji
  · exact (pairwise_iff_getElem.mp hboth i j hi hj hij).2
  · exact absurd hlt (keyOrder_self_ne _)
  · have hle := (pairwise_iff_getElem.mp hboth j i hj hi hji).1
    rw [OrientedCmp.gt_of_lt hlt] at hle
    cases hle

end

end PagedScan

def scanAnswer (fileRows : FileDescriptor → List ServingRow) (group : List FileDescriptor) (sql : ScanSql) :
    DynamoResult (List ServingRow) :=
  .ok (((TopK.sort (scanKeyOrder sql.orderFields)
    ((group.flatMap fileRows).filter fun row => sql.start.all (·.holds row))).take sql.limit).map
      (selectColumns sql.select))

theorem isResult_scanAnswer {fileRows : FileDescriptor → List ServingRow} {group : List FileDescriptor}
    {sql : ScanSql} (htyped : TypedFields sql.orderFields (group.flatMap fileRows)) :
    ∃ rows, scanAnswer fileRows group sql = .ok rows ∧ sql.IsResult (group.flatMap fileRows) rows := by
  refine ⟨_, rfl, _, perm_insertionSort _ _, ?_, rfl⟩
  refine List.Pairwise.imp_of_mem (fun {left right} hleft hright hle => ?_) (sorted_sort _)
  have hmem : ∀ row ∈ TopK.sort (scanKeyOrder sql.orderFields)
      ((group.flatMap fileRows).filter fun row => sql.start.all (·.holds row)), row ∈ group.flatMap fileRows :=
    fun row hrow => mem_of_mem_filter ((perm_insertionSort _ _).mem_iff.mp hrow)
  rw [sqlRowOrder_eq_scanKeyOrder htyped (hmem left hleft) (hmem right hright)]
  exact isLE_iff_ne_gt.mp hle

def order (id : Nat) : ServingRow := Dict.insertAll ∅ [("id", .number (.posInt id))]

/-- The second file was written after the table had got another column. -/
def orderFiles : List FileDescriptor :=
  [⟨"a", ⟨[⟨"id", .integer⟩]⟩, 1⟩, ⟨"b", ⟨[⟨"id", .integer⟩, ⟨"note", .string⟩]⟩, 1⟩]

variable (first second : Nat)

def orderRows (file : FileDescriptor) : List ServingRow :=
  if file.filePath = "a" then [order first] else [order second]

theorem mem_orderRows {first second : Nat} {files : List FileDescriptor} {row : ServingRow}
    (h : row ∈ files.flatMap (orderRows first second)) : row = order first ∨ row = order second := by
  obtain ⟨file, -, hrow⟩ := mem_flatMap.mp h
  unfold orderRows at hrow
  split at hrow
  · exact Or.inl (mem_singleton.mp hrow)
  · exact Or.inr (mem_singleton.mp hrow)

theorem typed_orderRows (files : List FileDescriptor) :
    TypedFields ["id"] (files.flatMap (orderRows first second)) := by
  intro field hfield
  obtain rfl := mem_singleton.mp hfield
  refine ⟨.integer, fun row hrow => ?_⟩
  rcases mem_orderRows hrow with rfl | rfl <;> rfl

def ordersScan (hne : first ≠ second) (hfirst : first < 2 ^ 63) (hsecond : second < 2 ^ 63) : PagedScan where
  floatText := fun _ => ""
  text := fun _ => ""
  answer := scanAnswer (orderRows first second)
  config := ⟨"id", none, [], []⟩
  schema := ⟨[⟨"id", .integer⟩, ⟨"note", .string⟩]⟩
  files := orderFiles
  fileRows := orderRows first second
  request := {}
  prepared := ⟨⟨⟨"id", none⟩, true, .table, none⟩, .allAttributes, ["id"], none⟩
  prepares := by rfl
  keyed := by
    intro item hitem field hfield
    obtain rfl := mem_singleton.mp hfield
    rcases mem_orderRows hitem with rfl | rfl
    · exact ⟨.number (.posInt first), rfl, decide_eq_true hfirst⟩
    · exact ⟨.number (.posInt second), rfl, decide_eq_true hsecond⟩
  typed := typed_orderRows first second orderFiles
  unique := by
    refine pairwise_cons.mpr ⟨fun row hrow => ?_, pairwise_singleton _ _⟩
    obtain rfl := mem_singleton.mp hrow
    refine ⟨"id", mem_singleton.mpr rfl, fun h => hne ?_⟩
    have h' : some (Value.number (.posInt first)) = some (Value.number (.posInt second)) := h
    injection h' with h'
    injection h' with h'
    injection h'
  answers := by
    intro group hgroup sql _ horder
    have hnames : ∀ group ∈ groupFilesBySchema orderFiles, NamesColumns none ["id"] group := by decide +kernel
    rw [if_pos (hnames group hgroup)]
    exact isResult_scanAnswer (horder ▸ typed_orderRows first second group)

end PowdrrEngine
