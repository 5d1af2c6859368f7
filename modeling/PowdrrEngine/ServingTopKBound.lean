import PowdrrEngine.LibTopK
import PowdrrEngine.ServingLookupSql
import PowdrrEngine.ServingTopK

/-! The order of the sort column and what the bounds say about it. The bound of a file comes before every
row of the file, or ties with it, where the bound accounts for the row. Left out of account are the nulls
of a descending sort, which come first but are in no bound, and the rows of a row group that pruning
wrongly rules out. -/

namespace PowdrrEngine

open List Option Std TopK TransCmp OrientedCmp Ordering

/-! ### The order of a column of one type -/

inductive ColumnKind where
  | boolean
  | number
  | string

def ColumnKind.has : ColumnKind → Value → Bool
  | .boolean, .bool _ | .number, .number _ | .string, .string _ => true
  | _, _ => false

/-- What a column of a type may hold. -/
def ColumnKind.holds (kind : ColumnKind) (value : Value) : Prop := value = .null ∨ kind.has value = true

section

variable {kind : ColumnKind} {left right : Value}

theorem compareScalarValues_of_has (hleft : kind.has left = true) (hright : kind.has right = true) :
    compareScalarValues left right = some (columnOrder left right) := by
  cases kind <;> cases left <;> cases hleft <;> cases right <;> cases hright <;>
    simp [compareScalarValues, columnOrder, Value.rank, Value.numberKey, Value.stringKey, Value.boolKey, Dyadic.cmp]

theorem columnOrder_null_right (left : Value) : (columnOrder left .null).isLE = true := by
  by_cases h : left = .null
  · rw [h]
    decide
  · rw [(nullLast_columnOrder.2 left h).2]
    rfl

theorem compareValues_eq_columnOrder (text : Value → String) (hleft : kind.holds left)
    (hright : kind.holds right) : compareValues text left right = columnOrder left right := by
  rcases hleft with rfl | hleft
  · rcases hright with rfl | hright
    · rfl
    · cases kind <;> cases right <;> cases hright <;> rfl
  · rcases hright with rfl | hright
    · cases kind <;> cases left <;> cases hleft <;> rfl
    · exact compareValues_of_scalar (compareScalarValues_of_has hleft hright)

theorem columnOrder_isLE_of_sqlCompare (hleft : kind.has left = true) (hright : kind.has right = true)
    (h : sqlCompare left right ≠ some .gt) : (columnOrder left right).isLE = true := by
  rw [isLE_iff_ne_gt]
  intro hgt
  refine h (sqlCompare_of_compareScalarValues (by decide) ?_)
  rw [compareScalarValues_of_has hleft hright, hgt]

theorem columnOrder_isGE_of_sqlCompare (hleft : kind.has left = true) (hright : kind.has right = true)
    (h : sqlCompare left right ≠ some .lt) : (columnOrder right left).isLE = true := by
  rw [isLE_iff_ne_gt]
  intro hgt
  refine h (sqlCompare_of_compareScalarValues (by decide) ?_)
  rw [compareScalarValues_of_has hleft hright, lt_of_gt hgt]

end

def sortedOrder (descending : Bool) (left right : Value) : Ordering :=
  if descending then columnOrder right left else columnOrder left right

instance (descending : Bool) : Std.TransCmp (sortedOrder descending) := by
  cases descending with
  | false => exact inferInstanceAs (Std.TransCmp columnOrder)
  | true => exact (Std.TransCmp.opposite : Std.TransCmp fun a b => columnOrder b a)

theorem lookup_of_sortKey_ne_null {field : String} {row : ServingRow} (h : sortKey field row ≠ .null) :
    row.lookup field = some (sortKey field row) := by
  unfold sortKey at h ⊢
  cases hlookup : row.lookup field with
  | none => exact absurd (by rw [hlookup]; rfl) h
  | some value => rfl

def keyOrder (sort : ReadSort) (left right : ServingRow) : Ordering :=
  sortedOrder sort.descending (sortKey sort.field left) (sortKey sort.field right)

instance (sort : ReadSort) : Std.TransCmp (keyOrder sort) :=
  transCmp_on (sortKey sort.field) (sortedOrder sort.descending)

section

variable {kind : ColumnKind} {descending : Bool} {a b : Option Value}

theorem compareRowValues_eq_sortedOrder (text : Value → String) (ha : kind.holds (a.getD .null))
    (hb : kind.holds (b.getD .null)) :
    compareRowValues text a b descending = sortedOrder descending (a.getD .null) (b.getD .null) := by
  unfold compareRowValues sortedOrder
  dsimp only
  rw [← compareValues_swap text, compareValues_eq_columnOrder text ha hb, compareValues_eq_columnOrder text hb ha]

theorem sqlOrder_of_columnOrder {o : Ordering} (ho : o ≠ .eq) (ha : kind.holds (a.getD .null))
    (hb : kind.holds (b.getD .null)) (h : columnOrder (a.getD .null) (b.getD .null) = o) : sqlOrder a b false = o := by
  subst h
  refine sqlOrder_eq nullLast_columnOrder fun hleft hright => ?_
  exact sqlCompare_of_compareScalarValues ho
    (compareScalarValues_of_has (ha.resolve_left hleft) (hb.resolve_left hright))

theorem sortedOrder_isLE_of_sqlOrder (ha : kind.holds (a.getD .null)) (hb : kind.holds (b.getD .null))
    (h : sqlOrder a b descending ≠ .gt) :
    (sortedOrder descending (a.getD .null) (b.getD .null)).isLE = true := by
  rw [isLE_iff_ne_gt]
  intro hgt
  refine h ?_
  cases descending with
  | false => exact sqlOrder_of_columnOrder (by decide) ha hb hgt
  | true => exact congrArg Ordering.swap (sqlOrder_of_columnOrder (by decide) ha hb (lt_of_gt hgt))

end

/-! ### What the bounds account for -/

@[mk_iff]
structure SortStatsTyped (kind : ColumnKind) (sort : ReadSort) (stats : IcebergFileStats) : Prop where
  columns : ∀ column ∈ stats.columns ++ stats.rowGroups.flatMap (·.columns), column.fieldName = sort.field →
    (∀ bound ∈ column.lowerBound, kind.has bound = true) ∧ ∀ bound ∈ column.upperBound, kind.has bound = true
  partition : ∀ partition ∈ stats.identityPartition sort.field, kind.holds partition

/-- The statistics of a file are true of a row of it: those pruning consults, and those of its columns. -/
@[mk_iff]
structure RowStatsExact (stats : IcebergFileStats) (rowGroup : Option IcebergRowGroupStats) (row : ServingRow) :
    Prop extends FileStatsExact stats rowGroup row where
  file : ∀ column ∈ stats.columns, ColumnStatsExact column stats.recordCount row

/-- A row that the bound of its file does not account for: its sort value is null and nulls come first,
or its row group was ruled out. -/
def Overlooked (request : ReadPlan) (sort : ReadSort) (rowGroup : Option IcebergRowGroupStats)
    (row : ServingRow) : Prop :=
  sort.descending = true ∧ sortKey sort.field row = .null ∨
    ∃ group ∈ rowGroup, rowGroupMayMatchRequest group request = false

section

variable {kind : ColumnKind} {sort : ReadSort} {row : ServingRow} {stats : IcebergFileStats} {bound : Value}
  {text : Value → String} {column : IcebergColumnStats} {best : Option Value} {b : Value} {recordCount : Option Nat}

/-- The bounds of a column are of its type. -/
def ColumnTyped (kind : ColumnKind) (column : IcebergColumnStats) : Prop :=
  (∀ bound ∈ column.lowerBound, kind.has bound = true) ∧ ∀ bound ∈ column.upperBound, kind.has bound = true

theorem columnSortBound_holds (htyped : ColumnTyped kind column)
    (h : columnSortBound column recordCount sort.descending = some bound) : kind.holds bound := by
  unfold columnSortBound at h
  split at h
  · exact Or.inl (Option.some.inj h).symm
  · split at h
    · exact Or.inr (htyped.2 bound h)
    · exact Or.inr (htyped.1 bound h)

section

variable (hrow : kind.holds (sortKey sort.field row)) (hnull : sort.descending = true → sortKey sort.field row ≠ .null)

include hrow hnull

theorem columnSortBound_le (hfield : column.fieldName = sort.field)
    (hexact : ColumnStatsExact column recordCount row) (htyped : ColumnTyped kind column)
    (h : columnSortBound column recordCount sort.descending = some bound) :
    (sortedOrder sort.descending bound (sortKey sort.field row)).isLE = true := by
  have hvalue : sortKey sort.field row ≠ .null → row.lookup column.fieldName = some (sortKey sort.field row) :=
    fun hne => hfield.symm ▸ lookup_of_sortKey_ne_null hne
  have hhas : sortKey sort.field row ≠ .null → kind.has (sortKey sort.field row) = true :=
    fun hne => hrow.resolve_left hne
  unfold columnSortBound at h
  split at h
  · rename_i hall
    cases h
    have hkey : sortKey sort.field row = .null := by
      by_contra hne
      exact hne (hexact.nulls hall _ (hvalue hne))
    rw [hkey]
    exact isLE_self _
  split at h
  · rename_i hdesc
    have hne := hnull hdesc
    have hle := columnOrder_isLE_of_sqlCompare (hhas hne) (htyped.2 bound h) (hexact.upper bound h _ (hvalue hne))
    rw [hdesc]
    exact hle
  rename_i hasc
  rw [Bool.not_eq_true] at hasc
  rw [hasc]
  by_cases hne : sortKey sort.field row = .null
  · rw [hne]
    exact columnOrder_null_right bound
  · exact columnOrder_isGE_of_sqlCompare (hhas hne) (htyped.1 bound h) (hexact.lower bound h _ (hvalue hne))

theorem partitionSortBound_le (hpartition : kind.holds bound)
    (hexact : ∀ value ∈ row.lookup sort.field, value ≠ .null → sqlCompare value bound = some .eq) :
    (sortedOrder sort.descending bound (sortKey sort.field row)).isLE = true := by
  by_cases hkey : sortKey sort.field row = .null
  · rw [hkey]
    unfold sortedOrder
    split
    · rename_i hdesc
      exact absurd hkey (hnull hdesc)
    · exact columnOrder_null_right bound
  have heq := hexact _ (lookup_of_sortKey_ne_null hkey) hkey
  have hbound : kind.has bound = true := by
    refine hpartition.resolve_left fun hnull => ?_
    rw [hnull] at heq
    cases hvalue : sortKey sort.field row <;> rw [hvalue] at heq <;> cases heq
  have hhas := hrow.resolve_left hkey
  unfold sortedOrder
  split
  · exact columnOrder_isLE_of_sqlCompare hhas hbound (by rw [heq]; decide)
  · exact columnOrder_isGE_of_sqlCompare hhas hbound (by rw [heq]; decide)

end

/-! The loops that look for the best bound. -/

theorem compareSortValues_eq {a : Value} {descending : Bool} (ha : kind.holds a) (hb : kind.holds b) :
    compareSortValues text a b descending = sortedOrder descending a b :=
  compareRowValues_eq_sortedOrder text ha hb

theorem keepBest_spec (text : Value → String) (descending : Bool) {candidate : Value}
    (hbest : ∀ b ∈ best, kind.holds b) (hcandidate : kind.holds candidate) :
    ∃ b, keepBest text descending best candidate = some b ∧ kind.holds b ∧
      (sortedOrder descending b candidate).isLE = true ∧
      ∀ b' ∈ best, (sortedOrder descending b b').isLE = true := by
  unfold keepBest
  cases best with
  | none => exact ⟨candidate, rfl, hcandidate, isLE_self _, by simp⟩
  | some best =>
    have hholds := hbest best rfl
    simp only [all_some, compareSortValues_eq hcandidate hholds, decide_eq_true_eq]
    split
    · rename_i hlt
      refine ⟨candidate, rfl, hcandidate, isLE_self _, ?_⟩
      rintro b' ⟨⟩
      rw [hlt]
      rfl
    rename_i hge
    refine ⟨best, rfl, hholds, ?_, ?_⟩
    · exact isGE_iff_isLE.mp (isGE_iff_ne_lt.mpr hge)
    · rintro b' ⟨⟩
      exact isLE_self _

theorem bestBound_spec (text : Value → String) {α : Type} {boundOf : α → Option Value} {fallback : Option Value}
    {loop : List α → Option Value → Option Value} (hnil : ∀ best, loop [] best = best)
    (hcons : ∀ item items best, loop (item :: items) best = match boundOf item with
      | none => fallback
      | some candidate => loop items (keepBest text sort.descending best candidate))
    {items : List α} (hkind : ∀ item ∈ items, ∀ b ∈ boundOf item, kind.holds b)
    (hbest : ∀ b ∈ best, kind.holds b) (h : loop items best = some bound) :
    fallback = some bound ∨ kind.holds bound ∧ (∀ b ∈ best, (sortedOrder sort.descending bound b).isLE = true) ∧
      ∀ item ∈ items, ∃ b, boundOf item = some b ∧ (sortedOrder sort.descending bound b).isLE = true := by
  induction items generalizing best with
  | nil =>
    obtain rfl : best = some bound := (hnil best).symm.trans h
    refine Or.inr ⟨hbest bound rfl, ?_, by simp⟩
    rintro b ⟨⟩
    exact isLE_self _
  | cons item items ih =>
    rw [hcons] at h
    cases hitem : boundOf item with
    | none =>
      rw [hitem] at h
      exact Or.inl h
    | some candidate =>
      rw [hitem] at h
      have hcandidate := hkind item mem_cons_self candidate hitem
      obtain ⟨b, hb, hbkind, hbc, hbb⟩ := keepBest_spec text sort.descending hbest hcandidate
      dsimp only at h
      rw [hb] at h
      refine (ih (fun other hother => hkind other (mem_cons_of_mem _ hother))
        (by rintro _ ⟨⟩; exact hbkind) h).imp_right fun ⟨hholds, hle, hitems⟩ => ?_
      have hboundb := hle b rfl
      refine ⟨hholds, fun b' hb' => isLE_trans hboundb (hbb b' hb'), ?_⟩
      intro other hother
      rcases mem_cons.mp hother with rfl | hother
      · exact ⟨candidate, hitem, isLE_trans hboundb hbc⟩
      · exact hitems other hother

theorem fileGroupSortBound_spec {fileBound : FileDescriptor → Option Value} {files : List FileDescriptor}
    (hkind : ∀ file ∈ files, ∀ b ∈ fileBound file, kind.holds b) (hbest : ∀ b ∈ best, kind.holds b)
    (h : fileGroupSortBound text fileBound sort.descending files best = some bound) :
    kind.holds bound ∧ (∀ b ∈ best, (sortedOrder sort.descending bound b).isLE = true) ∧
      ∀ file ∈ files, ∃ b, fileBound file = some b ∧ (sortedOrder sort.descending bound b).isLE = true := by
  refine (bestBound_spec text (fun _ => rfl) (fun file files best => ?_) hkind hbest h).resolve_left
    (some_ne_none bound).symm
  cases hfile : fileBound file <;> simp [fileGroupSortBound, hfile]

/-! The bound of a file. -/

theorem rowGroupSortBound_cases {rowGroup : IcebergRowGroupStats}
    (h : rowGroupSortBound rowGroup sort.field sort.descending = some b) :
    ∃ column ∈ rowGroup.columns, column.fieldName = sort.field ∧
      columnSortBound column rowGroup.recordCount sort.descending = some b := by
  simp only [rowGroupSortBound, bind_eq_bind, bind_eq_some_iff] at h
  obtain ⟨column, hfind, hb⟩ := h
  have hfound := find?_some hfind
  exact ⟨column, mem_of_find?_eq_some hfind, of_decide_eq_true hfound, hb⟩

theorem fileLevelSortBound_cases {sortOrder : List IcebergSortField}
    (h : fileLevelSortBound stats sortOrder sort.field sort.descending = some b) :
    (∃ column ∈ stats.columns, column.fieldName = sort.field ∧
      columnSortBound column stats.recordCount sort.descending = some b) ∨
    stats.identityPartition sort.field = some b := by
  unfold fileLevelSortBound at h
  split at h
  · rename_i column hfind
    have hfound := find?_some hfind
    exact Or.inl ⟨column, mem_of_find?_eq_some hfind, of_decide_eq_true hfound, h⟩
  · split at h
    · exact Or.inr h
    · cases h

section

variable (htyped : SortStatsTyped kind sort stats)

include htyped

theorem SortStatsTyped.rowGroup {rowGroup : IcebergRowGroupStats} (hmem : rowGroup ∈ stats.rowGroups)
    (hcolumn : column ∈ rowGroup.columns) (hfield : column.fieldName = sort.field) :
    ColumnTyped kind column :=
  htyped.columns column
    (mem_append_right _ (mem_flatMap.mpr ⟨rowGroup, hmem, hcolumn⟩)) hfield

theorem fileLevelSortBound_holds {sortOrder : List IcebergSortField}
    (h : fileLevelSortBound stats sortOrder sort.field sort.descending = some b) : kind.holds b := by
  rcases fileLevelSortBound_cases h with ⟨column, hcolumn, hfield, hb⟩ | hb
  · exact columnSortBound_holds (htyped.columns column (mem_append_left _ hcolumn) hfield) hb
  · exact htyped.partition b hb

theorem fileLevelSortBound_le {rowGroup : Option IcebergRowGroupStats} (hexact : RowStatsExact stats rowGroup row)
    (hrow : kind.holds (sortKey sort.field row)) (hnull : sort.descending = true → sortKey sort.field row ≠ .null)
    {sortOrder : List IcebergSortField}
    (h : fileLevelSortBound stats sortOrder sort.field sort.descending = some bound) :
    (sortedOrder sort.descending bound (sortKey sort.field row)).isLE = true := by
  rcases fileLevelSortBound_cases h with ⟨column, hcolumn, hfield, hb⟩ | hb
  · exact columnSortBound_le hrow hnull hfield (hexact.file column hcolumn)
      (htyped.columns column (mem_append_left _ hcolumn) hfield) hb
  refine partitionSortBound_le hrow hnull (htyped.partition bound hb) ?_
  obtain ⟨partitionValue, hmem, hfield, hidentity, hvalue⟩ := stats.identityPartition_eq_some hb
  intro value hlookup
  exact hexact.partitions partitionValue hmem hidentity bound hvalue value (hfield ▸ hlookup)

end

variable {fileStats : Dict String IcebergFileStats} {sortOrder : List IcebergSortField} {request : ReadPlan}
  {file : FileDescriptor}

section

variable (hstats : ∀ stats ∈ fileStats.lookup file.filePath, SortStatsTyped kind sort stats)
  (h : fileSortBound text fileStats sortOrder request sort.field sort.descending file = some bound)

include hstats h

theorem fileSortBound_cases : ∃ stats, fileStats.lookup file.filePath = some stats ∧ kind.holds bound ∧
      (fileLevelSortBound stats sortOrder sort.field sort.descending = some bound ∨ stats.rowGroups ≠ [] ∧
          ∀ rowGroup ∈ stats.rowGroups, rowGroupMayMatchRequest rowGroup request = true →
            ∃ b, rowGroupSortBound rowGroup sort.field sort.descending = some b ∧
              (sortedOrder sort.descending bound b).isLE = true) := by
  simp only [fileSortBound, bind_eq_bind, bind_eq_some_iff] at h
  obtain ⟨stats, hlookup, h⟩ := h
  have htyped := hstats stats hlookup
  refine ⟨stats, hlookup, ?_⟩
  split at h
  · exact ⟨fileLevelSortBound_holds htyped h, Or.inl h⟩
  rename_i hgroups
  have hholds : ∀ rowGroup ∈ stats.rowGroups.filter (rowGroupMayMatchRequest · request), ∀ b,
      rowGroupSortBound rowGroup sort.field sort.descending = some b → kind.holds b := by
    intro rowGroup hmem b hb
    obtain ⟨column, hcolumn, hfield, hb⟩ := rowGroupSortBound_cases hb
    exact columnSortBound_holds (htyped.rowGroup (mem_filter.mp hmem).1 hcolumn hfield) hb
  rcases bestBound_spec text (fun _ => rfl) (fun _ _ _ => rfl) hholds (by simp) h with hfile | ⟨hholds, -, hall⟩
  · exact ⟨fileLevelSortBound_holds htyped hfile, Or.inl hfile⟩
  · refine ⟨hholds, Or.inr ⟨hgroups, fun rowGroup hmem hmay => ?_⟩⟩
    exact hall rowGroup (mem_filter.mpr ⟨hmem, hmay⟩)

/-- **The bound of a file.** It is at least as good as every row of the file that is not overlooked. -/
theorem fileSortBound_le {rowGroup : Option IcebergRowGroupStats}
    (hexact : ∀ stats ∈ fileStats.lookup file.filePath, RowStatsExact stats rowGroup row)
    (hrow : kind.holds (sortKey sort.field row)) (hseen : ¬ Overlooked request sort rowGroup row) :
    (sortedOrder sort.descending bound (sortKey sort.field row)).isLE = true := by
  obtain ⟨stats, hlookup, -, hbound⟩ := fileSortBound_cases hstats h
  have htyped := hstats stats hlookup
  have hexact := hexact stats hlookup
  have hnull : sort.descending = true → sortKey sort.field row ≠ .null :=
    fun hdesc hkey => hseen (Or.inl ⟨hdesc, hkey⟩)
  rcases hbound with hfile | ⟨hgroups, hall⟩
  · exact fileLevelSortBound_le htyped hexact hrow hnull hfile
  have hplace := hexact.place
  rw [if_neg hgroups] at hplace
  obtain ⟨group, hmem, rfl⟩ := hplace
  have hmay : rowGroupMayMatchRequest group request = true := by
    by_contra hno
    exact hseen (Or.inr ⟨group, rfl, Bool.not_eq_true _ ▸ hno⟩)
  obtain ⟨b, hb, hle⟩ := hall group hmem hmay
  obtain ⟨column, hcolumn, hfield, hcolumnBound⟩ := rowGroupSortBound_cases hb
  exact isLE_trans hle (columnSortBound_le hrow hnull hfield (hexact.columns column hcolumn)
    (htyped.rowGroup hmem hcolumn hfield) hcolumnBound)

end

end

end PowdrrEngine
