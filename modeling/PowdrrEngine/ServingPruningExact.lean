import PowdrrEngine.ServingPruning
import PowdrrEngine.ServingRounding

/-! Pruning against the meaning of SQL. The statistics are the true bounds of the rows, integers compared
exactly, and a row is wanted when SQL selects it. Pruning compares as doubles, which is coarser: it can
still not rule out an equality or a weak bound, but a strict bound that rounds to the double of the
statistic is taken for the statistic itself, and the rows between the two are lost. -/

namespace PowdrrEngine

open List

/-! ### Statistics in the exact order -/

@[mk_iff]
structure ColumnStatsExact (stats : IcebergColumnStats) (recordCount : Option Nat) (row : ServingRow) : Prop where
  lower : ∀ bound ∈ stats.lowerBound, ∀ value ∈ row.lookup stats.fieldName, sqlCompare value bound ≠ some .lt
  upper : ∀ bound ∈ stats.upperBound, ∀ value ∈ row.lookup stats.fieldName, sqlCompare value bound ≠ some .gt
  nulls : columnIsAllNull stats recordCount = true → ∀ value ∈ row.lookup stats.fieldName, value = .null

theorem ColumnStatsExact.valid {stats : IcebergColumnStats} {recordCount : Option Nat} {row : ServingRow}
    (h : ColumnStatsExact stats recordCount row) : ColumnStatsValid stats recordCount row where
  lower bound hbound value hvalue hlt :=
    h.lower bound hbound value hvalue (sqlCompare_of_compareScalarValues (by decide) hlt)
  upper bound hbound value hvalue hgt :=
    h.upper bound hbound value hvalue (sqlCompare_of_compareScalarValues (by decide) hgt)
  nulls := h.nulls

def IcebergFileStats.consulted (stats : IcebergFileStats) : Option IcebergRowGroupStats → List IcebergColumnStats
  | none => stats.columns
  | some rowGroup => rowGroup.columns

/-- The number of records that goes with them. -/
def IcebergFileStats.consultedCount (stats : IcebergFileStats) : Option IcebergRowGroupStats → Option Nat
  | none => stats.recordCount
  | some rowGroup => rowGroup.recordCount

/-- The statistics of a file are true of a row of it that stands in `rowGroup`; nothing stands in a row
group where the statistics have none. -/
@[mk_iff]
structure FileStatsExact (stats : IcebergFileStats) (rowGroup : Option IcebergRowGroupStats)
    (row : ServingRow) : Prop where
  place : if stats.rowGroups = [] then rowGroup = none else ∃ group ∈ stats.rowGroups, rowGroup = some group
  columns : ∀ column ∈ stats.consulted rowGroup, ColumnStatsExact column (stats.consultedCount rowGroup) row
  partitions : ∀ partitionValue ∈ stats.partitionValues, partitionValue.transform = "identity" →
    ∀ partition ∈ partitionValue.value, ∀ value ∈ row.lookup partitionValue.sourceFieldName,
      value ≠ .null → sqlCompare value partition = some .eq

/-! ### Strict bounds -/

/-- No strict bound of a predicate has the double of the statistic it is held against. -/
@[mk_iff]
structure StrictApart (predicate : ReadPredicate) (lower upper : Option Value) : Prop where
  gt : ∀ literal ∈ predicate.gt, ∀ bound ∈ upper, compareScalarValues bound literal ≠ some .eq
  lt : ∀ literal ∈ predicate.lt, ∀ bound ∈ lower, compareScalarValues bound literal ≠ some .eq

def RangeApart (predicate : ReadPredicate) (lower upper : Option Value) : Prop :=
  predicate.eq = none → predicate.inValues = none → StrictApart predicate lower upper

theorem any_compareScalarValues {value literal : Value} {exact coarse : Ordering → Bool}
    (htest : ∀ o, exact o = true → coarse o = true ∧ coarse .eq = true)
    (h : (sqlCompare value literal).any exact = true) :
    (compareScalarValues value literal).any coarse = true := by
  obtain ⟨o, ho, hexact⟩ := (Option.any_eq_true _ _).mp h
  obtain ⟨hcoarse, heq⟩ := htest o hexact
  rcases compareScalarValues_of_sqlCompare ho with h' | h' <;> rw [h']
  · exact hcoarse
  · exact heq

theorem boundMayMatch_iff_of_strict {columnBound predicateBound : Option Value}
    {strict weak : Ordering → Bool} (hweak : ∀ o, weak o = (strict o || o.isEq))
    (h : boundMayMatch columnBound predicateBound strict = true) :
    boundMayMatch columnBound predicateBound weak = true ↔
      ∀ literal ∈ predicateBound, ∀ bound ∈ columnBound, compareScalarValues bound literal ≠ some .eq := by
  simp only [boundMayMatch, Option.all_eq_true, Bool.not_eq_true', Option.any_eq_false] at h ⊢
  refine forall_congr' fun literal => forall_congr' fun hliteral => forall_congr' fun bound =>
    forall_congr' fun hbound => ?_
  have hstrict := h literal hliteral bound hbound
  cases hcmp : compareScalarValues bound literal with
  | none => simp
  | some o =>
    have ho : strict o = false := by simpa using hstrict o hcmp
    simp [hweak, ho]

section

variable {predicate : ReadPredicate} {value : Value} {row : ServingRow}

section

variable (haccepts : predicate.accepts sqlCompare value = true)

include haccepts

theorem boundsMayMatch_iff {lower upper : Option Value}
    (hlower : ∀ bound ∈ lower, compareScalarValues value bound ≠ some .lt)
    (hupper : ∀ bound ∈ upper, compareScalarValues value bound ≠ some .gt)
    (heq : predicate.eq = none) (hin : predicate.inValues = none) :
    (boundMayMatch upper predicate.gt (·.isLE) && boundMayMatch upper predicate.gte (·.isLT) &&
        boundMayMatch lower predicate.lt (·.isGE) && boundMayMatch lower predicate.lte (·.isGT)) = true ↔
      StrictApart predicate lower upper := by
  have haccepts' := haccepts
  simp only [ReadPredicate.accepts, heq, hin, Bool.and_eq_true, Option.all_eq_true] at haccepts'
  obtain ⟨⟨⟨hgt, hgte⟩, hlt⟩, hlte⟩ := haccepts'
  -- rounding leaves of a strict bound what it leaves of a weak one
  have hgtWeak := upperMayMatch_of_isGE hupper fun literal hl =>
    any_compareScalarValues (by decide) (hgt literal hl)
  have hltWeak := lowerMayMatch_of_isLE hlower fun literal hl =>
    any_compareScalarValues (by decide) (hlt literal hl)
  have hgte' := upperMayMatch_of_isGE hupper fun literal hl =>
    any_compareScalarValues (by decide) (hgte literal hl)
  have hlte' := lowerMayMatch_of_isLE hlower fun literal hl =>
    any_compareScalarValues (by decide) (hlte literal hl)
  have hgtIff : boundMayMatch upper predicate.gt (·.isLE) = true ↔ _ := boundMayMatch_iff_of_strict (by decide) hgtWeak
  have hltIff : boundMayMatch lower predicate.lt (·.isGE) = true ↔ _ := boundMayMatch_iff_of_strict (by decide) hltWeak
  simp only [Bool.and_eq_true]
  constructor
  · rintro ⟨⟨⟨h1, -⟩, h3⟩, -⟩
    exact ⟨hgtIff.mp h1, hltIff.mp h3⟩
  · intro h
    exact ⟨⟨⟨hgtIff.mpr h.gt, hgte'⟩, hltIff.mpr h.lt⟩, hlte'⟩

theorem accepts_compareScalarValues (hkind : predicate.eq ≠ none ∨ predicate.inValues ≠ none) :
    predicate.accepts compareScalarValues value = true := by
  have hequal : ∀ literal, (sqlCompare value literal).any (·.isEq) = true →
      (compareScalarValues value literal).any (·.isEq) = true :=
    fun literal => any_compareScalarValues (by decide)
  unfold ReadPredicate.accepts
  rcases predicate.accepts_cases haccepts with ⟨literal, heq, h⟩ | ⟨heq, literals, hin, literal, hmem, h⟩ |
    ⟨heq, hin, -⟩
  · rw [heq]
    exact hequal literal h
  · rw [heq, hin]
    exact any_eq_true.mpr ⟨literal, hmem, hequal literal h⟩
  · exact absurd hkind (by simp [heq, hin])

theorem predicateMayMatchStats_iff {stats : IcebergColumnStats} {recordCount : Option Nat}
    (hexact : ColumnStatsExact stats recordCount row) (hlookup : row.lookup stats.fieldName = some value)
    (hnull : value ≠ .null) :
    predicateMayMatchStats stats recordCount predicate = true ↔
      RangeApart predicate stats.lowerBound stats.upperBound := by
  have hvalid := hexact.valid
  by_cases hkind : predicate.eq = none ∧ predicate.inValues = none
  · obtain ⟨heq, hin⟩ := hkind
    have hnulls : columnIsAllNull stats recordCount = false :=
      Bool.eq_false_iff.mpr fun h => hnull (hvalid.nulls h value hlookup)
    simp only [predicateMayMatchStats, heq, hin, rangeMayMatch, hnulls, Bool.not_false, Bool.true_and,
      RangeApart, forall_const]
    exact boundsMayMatch_iff haccepts (fun bound hbound => hvalid.lower bound hbound value hlookup)
      (fun bound hbound => hvalid.upper bound hbound value hlookup) heq hin
  · have hkept := predicateMayMatchStats_of_accepts hvalid hlookup hnull
      (accepts_compareScalarValues haccepts (not_and_or.mp hkind))
    exact iff_of_true hkept fun heq hin => absurd ⟨heq, hin⟩ hkind

theorem partitionMayMatch_iff {partition : Value} (hpartition : sqlCompare value partition = some .eq) :
    partitionMayMatch predicate partition = true ↔ RangeApart predicate (some partition) (some partition) := by
  have heqp : compareScalarValues value partition = some .eq := by
    simpa using compareScalarValues_of_sqlCompare hpartition
  by_cases hkind : predicate.eq = none ∧ predicate.inValues = none
  · obtain ⟨heq, hin⟩ := hkind
    simp only [partitionMayMatch, heq, hin, RangeApart, forall_const]
    refine boundsMayMatch_iff haccepts ?_ ?_ heq hin
    · simp [heqp]
    · simp [heqp]
  · have hkept := partitionMayMatch_of_accepts heqp (accepts_compareScalarValues haccepts (not_and_or.mp hkind))
    exact iff_of_true hkept fun heq hin => absurd ⟨heq, hin⟩ hkind

end

end

/-! ### Files and row groups -/

/-- No strict bound of a request ties with a statistic that pruning holds it against, for the rows of a
file that stand in `rowGroup`. -/
@[mk_iff]
structure RequestApart (stats : IcebergFileStats) (rowGroup : Option IcebergRowGroupStats)
    (request : ReadPlan) : Prop where
  columns : ∀ predicate ∈ request.filters,
    ∀ column ∈ (stats.consulted rowGroup).find? (fun stats => stats.fieldName = predicate.field),
      RangeApart predicate column.lowerBound column.upperBound
  partitions : ∀ predicate ∈ request.filters, ∀ partition ∈ stats.identityPartition predicate.field,
    RangeApart predicate (some partition) (some partition)

section

variable {stats : IcebergFileStats} {rowGroup : Option IcebergRowGroupStats} {row : ServingRow} {request : ReadPlan}

theorem predicateMayMatchColumns_iff {predicate : ReadPredicate} (hexact : FileStatsExact stats rowGroup row)
    (h : predicate.holds sqlCompare row = true) :
    predicateMayMatchColumns (stats.consulted rowGroup) (stats.consultedCount rowGroup) predicate = true ↔
      ∀ column ∈ (stats.consulted rowGroup).find? (fun stats => stats.fieldName = predicate.field),
        RangeApart predicate column.lowerBound column.upperBound := by
  obtain ⟨value, hlookup, hnull, haccepts⟩ := predicate.holds_iff.mp h
  unfold predicateMayMatchColumns
  cases hfind : (stats.consulted rowGroup).find? fun stats => stats.fieldName = predicate.field with
  | none => simp
  | some column =>
    have hfound := List.find?_some hfind
    have hfield : column.fieldName = predicate.field := of_decide_eq_true hfound
    have hiff := predicateMayMatchStats_iff haccepts (hexact.columns column (mem_of_find?_eq_some hfind))
      (hfield ▸ hlookup) hnull
    simpa using hiff

theorem partitionsMayMatch_iff (hexact : FileStatsExact stats rowGroup row) (h : request.holds sqlCompare row = true) :
    partitionsMayMatch stats request.filters = true ↔
      ∀ predicate ∈ request.filters, ∀ partition ∈ stats.identityPartition predicate.field,
        RangeApart predicate (some partition) (some partition) := by
  rw [partitionsMayMatch, all_eq_true]
  refine forall_congr' fun predicate => forall_congr' fun hmem => ?_
  obtain ⟨value, hlookup, hnull, haccepts⟩ := predicate.holds_iff.mp (all_eq_true.mp h predicate hmem)
  rw [partitionPredicateMayMatchFile_answer]
  cases hpartition : stats.identityPartition predicate.field with
  | none => simp
  | some partition =>
    obtain ⟨partitionValue, hmem, hfield, hidentity, hvalue⟩ := stats.identityPartition_eq_some hpartition
    have hiff := partitionMayMatch_iff haccepts
      (hexact.partitions partitionValue hmem hidentity partition hvalue value (hfield ▸ hlookup) hnull)
    simpa using hiff

end

/-- **What pruning keeps.** A file whose statistics are true of one of its rows, and the row group the
row stands in, survive a request that selects the row exactly where no strict bound of the request has
the double of the statistic or the partition value it is held against. -/
theorem keepsRow_iff_requestApart {files : List FileDescriptor} {fileStats : Dict String IcebergFileStats}
    {request : ReadPlan} {file : FileDescriptor} {rowGroup : Option IcebergRowGroupStats} {row : ServingRow}
    (hfile : file ∈ files)
    (hexact : ∀ stats ∈ fileStats.lookup file.filePath, FileStatsExact stats rowGroup row)
    (hrow : request.holds sqlCompare row = true) :
    (file ∈ (pruneCandidateFiles files fileStats request).selectedFiles ∧
        ∀ stats ∈ fileStats.lookup file.filePath, ∀ group ∈ rowGroup, rowGroupMayMatchRequest group request = true) ↔
      ∀ stats ∈ fileStats.lookup file.filePath, RequestApart stats rowGroup request := by
  rw [selectedFiles_pruneCandidateFiles, mem_filter, fileSurvives]
  cases hstats : fileStats.lookup file.filePath with
  | none => simp [hfile]
  | some stats =>
    have hexact' := hexact stats hstats
    have hpartitions := partitionsMayMatch_iff hexact' hrow
    have hcolumns : (request.filters.all fun predicate =>
        predicateMayMatchColumns (stats.consulted rowGroup) (stats.consultedCount rowGroup) predicate) = true ↔ _ :=
      all_eq_true.trans (forall₂_congr fun predicate hmem =>
        predicateMayMatchColumns_iff hexact' (all_eq_true.mp hrow predicate hmem))
    have hplace := hexact'.place
    have hiff : RequestApart stats rowGroup request ↔ _ :=
      ⟨fun h => And.intro (hpartitions.mpr h.partitions) (hcolumns.mpr h.columns),
        fun h => ⟨hcolumns.mp h.2, hpartitions.mp h.1⟩⟩
    simp only [hfile, true_and, Option.mem_def, Option.some.injEq, forall_eq', hiff, Bool.and_eq_true]
    by_cases hgroups : stats.rowGroups = []
    · rw [if_pos hgroups] at hplace
      subst hplace
      simp [hgroups, fileMayMatchRequest, IcebergFileStats.consulted, IcebergFileStats.consultedCount]
    rw [if_neg hgroups] at hplace
    obtain ⟨group, hgroup, rfl⟩ := hplace
    simp only [if_neg hgroups, Option.some.injEq, forall_eq', any_eq_true, and_assoc]
    refine and_congr_right fun _ => ?_
    exact ⟨fun h => h.2, fun h => ⟨⟨group, hgroup, h⟩, h⟩⟩

/-! A file of one row, whose only column has the value `2 ^ 53 + 1`. -/

def wideRow : ServingRow := AList.singleton "id" (.int 9007199254740993)

def wideFile : FileDescriptor := { filePath := "a.parquet", schema := ⟨[]⟩, size := 64 }

def wideStats : IcebergFileStats :=
  { filePath := "a.parquet", recordCount := some 1, partitionValues := [], rowGroups := []
    columns :=
      [{ fieldId := 1, fieldName := "id", nullCount := some 0
         lowerBound := some (.int 9007199254740993), upperBound := some (.int 9007199254740993) }] }

def wideFileStats : Dict String IcebergFileStats := AList.singleton "a.parquet" wideStats

def wideRequest (bound : Int) : ReadPlan := { filters := [{ field := "id", gt := some (.int bound) }] }

theorem wideStats_exact : ∀ stats ∈ wideFileStats.lookup wideFile.filePath, FileStatsExact stats none wideRow := by
  simp only [fileStatsExact_iff, columnStatsExact_iff]
  decide +kernel

/-- Asked for what is above `2 ^ 53 - 1`, the file stays. -/
theorem keepsRow_iff_requestApart_wide :
    wideFile ∈ (pruneCandidateFiles [wideFile] wideFileStats (wideRequest 9007199254740991)).selectedFiles := by
  have hrow : (wideRequest 9007199254740991).holds sqlCompare wideRow = true := by decide
  refine ((keepsRow_iff_requestApart (mem_singleton.mpr rfl) wideStats_exact hrow).mpr ?_).1
  simp only [requestApart_iff, RangeApart, strictApart_iff]
  decide +kernel

/-- Asked for what is above `2 ^ 53`, which is the double of `2 ^ 53 + 1`, the file goes with the row
that SQL selects. -/
theorem not_keepsRow_wide : (∀ stats ∈ wideFileStats.lookup wideFile.filePath, FileStatsExact stats none wideRow) ∧
      (wideRequest 9007199254740992).holds sqlCompare wideRow = true ∧
      wideFile ∉ (pruneCandidateFiles [wideFile] wideFileStats (wideRequest 9007199254740992)).selectedFiles := by
  refine ⟨wideStats_exact, by decide, ?_⟩
  rw [selectedFiles_pruneCandidateFiles, mem_filter]
  rintro ⟨-, h⟩
  revert h
  decide

end PowdrrEngine
