import PowdrrEngine.ServingPlan
import PowdrrEngine.ContractCheckpoint
import Mathlib.Data.List.Sort

/-! Pruning: which files of a checkpoint a read plan has to look at. A file goes when its partition
values, its column statistics or those of all its row groups rule out a predicate. Where the statistics
are valid for the rows, a file with a row that satisfies the plan stays. -/

namespace PowdrrEngine

open List Option Std OrientedCmp TransCmp

/-! ### Column statistics -/

variable (stats : IcebergColumnStats) (recordCount : Option Nat)

def columnIsAllNull : Bool :=
  match stats.nullCount, recordCount with
  | some nullCount, some recordCount => recordCount ≤ nullCount
  | _, _ => false

/-- Bounds that cannot be compared with the value rule nothing out. -/
def equalityMayMatch (value : Value) : Bool :=
  !columnIsAllNull stats recordCount &&
    (stats.lowerBound.all fun bound => compareScalarValues value bound ≠ some .lt) &&
    (stats.upperBound.all fun bound => compareScalarValues value bound ≠ some .gt)

/-- One check of `range_may_match`: the column's bound on the side of the predicate's does not rule the
predicate out. -/
def boundMayMatch (columnBound predicateBound : Option Value) (rulesOut : Ordering → Bool) : Bool :=
  predicateBound.all fun value => columnBound.all fun bound =>
    !(compareScalarValues bound value).any rulesOut

def rangeMayMatch (predicate : ReadPredicate) : Bool :=
  !columnIsAllNull stats recordCount && boundMayMatch stats.upperBound predicate.gt (·.isLE) &&
    boundMayMatch stats.upperBound predicate.gte (·.isLT) &&
    boundMayMatch stats.lowerBound predicate.lt (·.isGE) &&
    boundMayMatch stats.lowerBound predicate.lte (·.isGT)

def predicateMayMatchStats (predicate : ReadPredicate) : Bool :=
  match predicate.eq, predicate.inValues with
  | some value, _ => equalityMayMatch stats recordCount value
  | none, some values => values.any fun value => equalityMayMatch stats recordCount value
  | none, none => rangeMayMatch stats recordCount predicate

/-- `predicate_may_match_file` and `predicate_may_match_row_group`: a column without statistics may
always match. -/
def predicateMayMatchColumns (columns : List IcebergColumnStats) (recordCount : Option Nat)
    (predicate : ReadPredicate) : Bool :=
  match columns.find? fun stats => stats.fieldName = predicate.field with
  | some stats => predicateMayMatchStats stats recordCount predicate
  | none => true

variable (stats : IcebergFileStats)

def fileMayMatchRequest (request : ReadPlan) : Bool :=
  request.filters.all fun predicate => predicateMayMatchColumns stats.columns stats.recordCount predicate

def rowGroupMayMatchRequest (stats : IcebergRowGroupStats) (request : ReadPlan) : Bool :=
  request.filters.all fun predicate => predicateMayMatchColumns stats.columns stats.recordCount predicate

/-! ### Partition values -/

def partitionRangeMayMatch (value : Value) (predicate : ReadPredicate) : Bool :=
  boundMayMatch (some value) predicate.gt (·.isLE) && boundMayMatch (some value) predicate.gte (·.isLT) &&
    boundMayMatch (some value) predicate.lt (·.isGE) && boundMayMatch (some value) predicate.lte (·.isGT)

/-- `partition_predicate_may_match_file`: nothing where the file has no identity partition value for
the field, otherwise the answer and the artifact that gave it. -/
def partitionPredicateMayMatchFile (predicate : ReadPredicate) : Option (Bool × String) := do
  let partitionValue ← stats.partitionValues.find? fun partitionValue =>
    partitionValue.sourceFieldName = predicate.field ∧ partitionValue.transform = "identity"
  let value ← partitionValue.value
  let mayMatch :=
    match predicate.eq, predicate.inValues with
    | some eq, _ => compareScalarValues eq value = some .eq
    | none, some candidates => candidates.any fun candidate => compareScalarValues candidate value = some .eq
    | none, none => partitionRangeMayMatch value predicate
  some (mayMatch, "partition-spec:" ++ partitionValue.fieldName)

/-! ### The loop over the files -/

/-- The outcome of pruning. -/
structure PrunedFileSelection where
  selectedFiles : List FileDescriptor := []
  filesSelected : Nat := 0
  rowGroupsConsidered : Nat := 0
  rowGroupsSelected : Nat := 0
  estimatedBytes : Nat := 0
  artifactsUsed : List String := []
  pageIndexRowGroupsSelected : Nat := 0
  bloomFilterRowGroupsSelected : Nat := 0

namespace PrunedFileSelection

variable (pruned : PrunedFileSelection)

/-- `record_artifact_usage`: the names are kept sorted and distinct. -/
def recordArtifactUsage (name : String) : PrunedFileSelection :=
  if name ∈ pruned.artifactsUsed then pruned
  else { pruned with artifactsUsed := (pruned.artifactsUsed ++ [name]).insertionSort (· ≤ ·) }

/-- `partition_values_may_match_request`: the predicates are looked at up to the first that rules the
file out. -/
def partitionValuesMayMatchRequest (stats : IcebergFileStats) :
    List ReadPredicate → PrunedFileSelection → Bool × PrunedFileSelection
  | [], pruned => (true, pruned)
  | predicate :: predicates, pruned =>
    match partitionPredicateMayMatchFile stats predicate with
    | none => partitionValuesMayMatchRequest stats predicates pruned
    | some (mayMatch, name) =>
      if mayMatch then
        partitionValuesMayMatchRequest stats predicates (pruned.recordArtifactUsage name)
      else (false, pruned.recordArtifactUsage name)

def selectFile (file : FileDescriptor) (bytes : Nat) : PrunedFileSelection :=
  { pruned with
    selectedFiles := pruned.selectedFiles ++ [file], filesSelected := pruned.filesSelected + 1
    estimatedBytes := pruned.estimatedBytes + bytes }

def recordFileStatsArtifactUsage (stats : IcebergFileStats) (request : ReadPlan) : PrunedFileSelection :=
  if request.filters.any fun predicate =>
      stats.columns.any fun column => column.fieldName = predicate.field then
    pruned.recordArtifactUsage "file-stats"
  else pruned

def recordPagePruningCoverage (rowGroups : List IcebergRowGroupStats) (request : ReadPlan) : PrunedFileSelection :=
  if request.filters = [] then pruned
  else
    let pages := pruned.pageIndexRowGroupsSelected + rowGroups.countP (·.pageIndexPresent)
    let blooms := pruned.bloomFilterRowGroupsSelected + rowGroups.countP (·.bloomFilterPresent)
    let pruned := { pruned with pageIndexRowGroupsSelected := pages, bloomFilterRowGroupsSelected := blooms }
    let pruned := if 0 < pages then pruned.recordArtifactUsage "page-index" else pruned
    if 0 < blooms then pruned.recordArtifactUsage "bloom-filter" else pruned

/-- A file stays if one of its row groups may match. -/
def pruneRowGroups (stats : IcebergFileStats) (request : ReadPlan) (file : FileDescriptor) : PrunedFileSelection :=
  let pruned := { pruned with rowGroupsConsidered := pruned.rowGroupsConsidered + stats.rowGroups.length }
  let matching := stats.rowGroups.filter fun rowGroup => rowGroupMayMatchRequest rowGroup request
  if matching = [] then pruned
  else
    let pruned := if request.filters = [] then pruned else pruned.recordArtifactUsage "row-group-stats"
    let pruned := { pruned with rowGroupsSelected := pruned.rowGroupsSelected + matching.length }
    let pruned := pruned.recordPagePruningCoverage matching request
    pruned.selectFile file (matching.map (·.compressedBytes)).sum

/-- The body of the loop of `prune_candidate_files`. -/
def pruneFile (fileStats : Dict String IcebergFileStats) (request : ReadPlan)
    (pruned : PrunedFileSelection) (file : FileDescriptor) : PrunedFileSelection :=
  match fileStats.lookup file.filePath with
  | none => pruned.selectFile file file.size
  | some stats =>
    match partitionValuesMayMatchRequest stats request.filters pruned with
    | (false, pruned) => pruned
    | (true, pruned) =>
      if stats.rowGroups = [] then
        let pruned := pruned.recordFileStatsArtifactUsage stats request
        if fileMayMatchRequest stats request then pruned.selectFile file file.size else pruned
      else pruned.pruneRowGroups stats request file

end PrunedFileSelection

def pruneCandidateFiles (files : List FileDescriptor) (fileStats : Dict String IcebergFileStats)
    (request : ReadPlan) : PrunedFileSelection :=
  files.foldl (PrunedFileSelection.pruneFile fileStats request) {}

/-! ### Which files stay -/

/-- The partition values of a file rule out no predicate. -/
def partitionsMayMatch (predicates : List ReadPredicate) : Bool :=
  predicates.all fun predicate => ((partitionPredicateMayMatchFile stats predicate).map Prod.fst).getD true

/-- What pruning asks of a file. -/
def fileSurvives (fileStats : Dict String IcebergFileStats) (request : ReadPlan) (file : FileDescriptor) : Bool :=
  match fileStats.lookup file.filePath with
  | none => true
  | some stats =>
    partitionsMayMatch stats request.filters &&
      if stats.rowGroups = [] then fileMayMatchRequest stats request
      else stats.rowGroups.any fun rowGroup => rowGroupMayMatchRequest rowGroup request

namespace PrunedFileSelection

section

variable (pruned : PrunedFileSelection)

include pruned

@[simp] theorem selectedFiles_recordArtifactUsage (name : String) :
    (pruned.recordArtifactUsage name).selectedFiles = pruned.selectedFiles := by
  unfold recordArtifactUsage
  split <;> rfl

@[simp] theorem selectedFiles_recordFileStatsArtifactUsage (stats : IcebergFileStats) (request : ReadPlan) :
    (pruned.recordFileStatsArtifactUsage stats request).selectedFiles = pruned.selectedFiles := by
  unfold recordFileStatsArtifactUsage
  split
  · exact selectedFiles_recordArtifactUsage _ _
  · rfl

@[simp] theorem selectedFiles_recordPagePruningCoverage (rowGroups : List IcebergRowGroupStats) (request : ReadPlan) :
    (pruned.recordPagePruningCoverage rowGroups request).selectedFiles = pruned.selectedFiles := by
  unfold recordPagePruningCoverage
  split
  · rfl
  · dsimp only
    split <;> split <;> simp only [selectedFiles_recordArtifactUsage]

@[simp] theorem selectedFiles_selectFile (file : FileDescriptor) (bytes : Nat) :
    (pruned.selectFile file bytes).selectedFiles = pruned.selectedFiles ++ [file] := rfl

end

theorem partitionValuesMayMatchRequest_spec (stats : IcebergFileStats) (predicates : List ReadPredicate)
    (pruned : PrunedFileSelection) :
    (partitionValuesMayMatchRequest stats predicates pruned).1 = partitionsMayMatch stats predicates ∧
      (partitionValuesMayMatchRequest stats predicates pruned).2.selectedFiles = pruned.selectedFiles := by
  induction predicates generalizing pruned with
  | nil => exact ⟨rfl, rfl⟩
  | cons predicate predicates ih =>
    unfold partitionValuesMayMatchRequest partitionsMayMatch
    rw [all_cons]
    cases hp : partitionPredicateMayMatchFile stats predicate with
    | none => simpa [partitionsMayMatch] using ih pruned
    | some answer =>
      obtain ⟨mayMatch, name⟩ := answer
      cases mayMatch with
      | true => simpa [partitionsMayMatch] using ih (pruned.recordArtifactUsage name)
      | false => simp

theorem selectedFiles_pruneRowGroups (pruned : PrunedFileSelection) (stats : IcebergFileStats)
    (request : ReadPlan) (file : FileDescriptor) :
    (pruned.pruneRowGroups stats request file).selectedFiles = pruned.selectedFiles ++
      if stats.rowGroups.any fun rowGroup => rowGroupMayMatchRequest rowGroup request then [file]
      else [] := by
  have hany : (stats.rowGroups.filter fun rowGroup => rowGroupMayMatchRequest rowGroup request) = [] ↔
      ¬ (stats.rowGroups.any fun rowGroup => rowGroupMayMatchRequest rowGroup request) = true := by
    simp
  unfold pruneRowGroups
  dsimp only
  split
  · rename_i h
    rw [if_neg (hany.mp h), append_nil]
  · rename_i h
    rw [if_pos (not_not.mp fun hno => h (hany.mpr hno))]
    split <;> simp

theorem selectedFiles_pruneFile (fileStats : Dict String IcebergFileStats) (request : ReadPlan)
    (pruned : PrunedFileSelection) (file : FileDescriptor) :
    (pruneFile fileStats request pruned file).selectedFiles =
      pruned.selectedFiles ++ if fileSurvives fileStats request file then [file] else [] := by
  unfold pruneFile fileSurvives
  cases hstats : fileStats.lookup file.filePath with
  | none => rfl
  | some stats =>
    obtain ⟨hanswer, hfiles⟩ := partitionValuesMayMatchRequest_spec stats request.filters pruned
    cases hresult : partitionValuesMayMatchRequest stats request.filters pruned with
    | mk mayMatch pruned' =>
      rw [hresult] at hanswer hfiles
      dsimp only at hanswer hfiles ⊢
      rw [hresult]
      cases mayMatch with
      | false => simp [← hanswer, hfiles]
      | true =>
        simp only [← hanswer, Bool.true_and]
        by_cases hgroups : stats.rowGroups = []
        · rw [if_pos hgroups, if_pos hgroups]
          split <;> simp [hfiles]
        · rw [if_neg hgroups, if_neg hgroups, selectedFiles_pruneRowGroups, hfiles]

end PrunedFileSelection

theorem selectedFiles_pruneCandidateFiles (files : List FileDescriptor)
    (fileStats : Dict String IcebergFileStats) (request : ReadPlan) :
    (pruneCandidateFiles files fileStats request).selectedFiles = files.filter (fileSurvives fileStats request) := by
  suffices hgen : ∀ pruned : PrunedFileSelection,
      (files.foldl (PrunedFileSelection.pruneFile fileStats request) pruned).selectedFiles =
        pruned.selectedFiles ++ files.filter (fileSurvives fileStats request) by
    simpa [pruneCandidateFiles] using hgen {}
  induction files with
  | nil => simp
  | cons file files ih =>
    intro pruned
    rw [foldl_cons, ih, PrunedFileSelection.selectedFiles_pruneFile, filter_cons]
    split <;> simp

/-! ### Soundness -/

@[mk_iff]
structure ColumnStatsValid (stats : IcebergColumnStats) (recordCount : Option Nat) (row : ServingRow) : Prop where
  lower : ∀ bound ∈ stats.lowerBound, ∀ value ∈ row.lookup stats.fieldName, compareScalarValues value bound ≠ some .lt
  upper : ∀ bound ∈ stats.upperBound, ∀ value ∈ row.lookup stats.fieldName, compareScalarValues value bound ≠ some .gt
  nulls : columnIsAllNull stats recordCount = true → ∀ value ∈ row.lookup stats.fieldName, value = .null

instance (stats : IcebergColumnStats) (recordCount : Option Nat) (row : ServingRow) :
    Decidable (ColumnStatsValid stats recordCount row) :=
  decidable_of_iff' _ (columnStatsValid_iff stats recordCount row)

/-- The statistics of a file are valid for a row of it: its columns, those of one of its row groups, and
its identity partition values. -/
@[mk_iff]
structure FileStatsValid (stats : IcebergFileStats) (row : ServingRow) : Prop where
  columns : ∀ column ∈ stats.columns, ColumnStatsValid column stats.recordCount row
  rowGroups : stats.rowGroups ≠ [] → ∃ rowGroup ∈ stats.rowGroups,
    ∀ column ∈ rowGroup.columns, ColumnStatsValid column rowGroup.recordCount row
  partitions : ∀ partitionValue ∈ stats.partitionValues, partitionValue.transform = "identity" →
    ∀ partition ∈ partitionValue.value, ∀ value ∈ row.lookup partitionValue.sourceFieldName,
      value ≠ .null → compareScalarValues value partition = some .eq

theorem compareScalarValues_of_eq {a b c : Value} {o : Ordering}
    (hab : compareScalarValues a b = some .eq) (hbc : compareScalarValues b c = some o) :
    compareScalarValues a c = some o := by
  rw [compareScalarValues_trans hab hbc, congr_left (columnOrder_of_scalar hab), columnOrder_of_scalar hbc]

theorem boundMayMatch_of_test {test rulesOut : Ordering → Bool} {bad : Ordering}
    {columnBound predicateBound : Option Value} {value : Value}
    (htrans : ∀ v l b, test (columnOrder v l) = true → rulesOut (columnOrder b l) = true → columnOrder v b = bad)
    (hbound : ∀ bound ∈ columnBound, compareScalarValues value bound ≠ some bad)
    (htest : ∀ literal ∈ predicateBound, (compareScalarValues value literal).any test = true) :
    boundMayMatch columnBound predicateBound rulesOut = true := by
  refine (all_eq_true _ _).mpr fun literal hliteral => (all_eq_true _ _).mpr fun bound hmem => ?_
  rw [Bool.not_eq_true']
  by_contra hrules
  obtain ⟨y, hy, hyrules⟩ := (any_eq_true _ _).mp (Bool.not_eq_false _ ▸ hrules)
  obtain ⟨x, hx, hxtest⟩ := (any_eq_true _ _).mp (htest literal hliteral)
  have hy' : compareScalarValues literal bound = some y.swap := by
    rw [compareScalarValues_swap bound literal, hy, map_some]
  rw [← columnOrder_of_scalar hx] at hxtest
  rw [← columnOrder_of_scalar hy] at hyrules
  exact hbound bound hmem (htrans value literal bound hxtest hyrules ▸ compareScalarValues_trans hx hy')

section

variable {row : ServingRow} {predicate : ReadPredicate} {value : Value}

theorem upperMayMatch_of_isGE {upper predicateBound : Option Value}
    (hupper : ∀ bound ∈ upper, compareScalarValues value bound ≠ some .gt)
    (h : ∀ literal ∈ predicateBound, (compareScalarValues value literal).any (·.isGE) = true) :
    boundMayMatch upper predicateBound (·.isLT) = true := by
  refine boundMayMatch_of_test ?_ hupper h
  intro v l b hvl hbl
  exact gt_of_isGE_of_gt hvl (gt_iff_lt.mpr (Ordering.isLT_iff_eq_lt.mp hbl))

theorem lowerMayMatch_of_isLE {lower predicateBound : Option Value}
    (hlower : ∀ bound ∈ lower, compareScalarValues value bound ≠ some .lt)
    (h : ∀ literal ∈ predicateBound, (compareScalarValues value literal).any (·.isLE) = true) :
    boundMayMatch lower predicateBound (·.isGT) = true := by
  refine boundMayMatch_of_test ?_ hlower h
  intro v l b hvl hbl
  exact lt_of_isLE_of_lt hvl (gt_iff_lt.mp (Ordering.isGT_iff_eq_gt.mp hbl))

theorem boundsMayMatch_of_accepts {lower upper : Option Value}
    (hlower : ∀ bound ∈ lower, compareScalarValues value bound ≠ some .lt)
    (hupper : ∀ bound ∈ upper, compareScalarValues value bound ≠ some .gt)
    (hgt : ∀ bound ∈ predicate.gt, (compareScalarValues value bound).any (·.isGT) = true)
    (hgte : ∀ bound ∈ predicate.gte, (compareScalarValues value bound).any (·.isGE) = true)
    (hlt : ∀ bound ∈ predicate.lt, (compareScalarValues value bound).any (·.isLT) = true)
    (hlte : ∀ bound ∈ predicate.lte, (compareScalarValues value bound).any (·.isLE) = true) :
    boundMayMatch upper predicate.gt (·.isLE) = true ∧ boundMayMatch upper predicate.gte (·.isLT) = true ∧
      boundMayMatch lower predicate.lt (·.isGE) = true ∧
      boundMayMatch lower predicate.lte (·.isGT) = true := by
  refine ⟨boundMayMatch_of_test ?_ hupper hgt, upperMayMatch_of_isGE hupper hgte,
    boundMayMatch_of_test ?_ hlower hlt, lowerMayMatch_of_isLE hlower hlte⟩
  · intro v l b hvl hbl
    exact gt_of_gt_of_isGE (Ordering.isGT_iff_eq_gt.mp hvl) (isGE_iff_isLE.mpr hbl)
  · intro v l b hvl hbl
    exact lt_of_lt_of_isLE (Ordering.isLT_iff_eq_lt.mp hvl) (isGE_iff_isLE.mp hbl)

theorem predicateMayMatchStats_of_accepts {stats : IcebergColumnStats} {recordCount : Option Nat}
    (hvalid : ColumnStatsValid stats recordCount row) (hlookup : row.lookup stats.fieldName = some value)
    (hnull : value ≠ .null) (haccepts : predicate.accepts compareScalarValues value = true) :
    predicateMayMatchStats stats recordCount predicate = true := by
  have hnulls : columnIsAllNull stats recordCount = false :=
    Bool.eq_false_iff.mpr fun h => hnull (hvalid.nulls h value hlookup)
  have hlower : ∀ bound ∈ stats.lowerBound, compareScalarValues value bound ≠ some .lt :=
    fun bound hbound => hvalid.lower bound hbound value hlookup
  have hupper : ∀ bound ∈ stats.upperBound, compareScalarValues value bound ≠ some .gt :=
    fun bound hbound => hvalid.upper bound hbound value hlookup
  have hequal : ∀ literal, (compareScalarValues value literal).any (·.isEq) = true →
      equalityMayMatch stats recordCount literal = true := by
    intro literal h
    obtain ⟨o, ho, heq⟩ := (Option.any_eq_true _ _).mp h
    cases o <;> cases heq
    simp only [equalityMayMatch, hnulls, Bool.not_false, Bool.true_and, Bool.and_eq_true,
      Option.all_eq_true, decide_eq_true_eq]
    exact ⟨fun bound hbound hlt => hlower bound hbound (compareScalarValues_of_eq ho hlt),
      fun bound hbound hgt => hupper bound hbound (compareScalarValues_of_eq ho hgt)⟩
  unfold predicateMayMatchStats
  rcases predicate.accepts_cases haccepts with ⟨literal, heq, h⟩ | ⟨heq, literals, hin, literal, hmem, h⟩ |
    ⟨heq, hin, hgt, hgte, hlt, hlte⟩
  · rw [heq]
    exact hequal literal h
  · rw [heq, hin]
    exact any_eq_true.mpr ⟨literal, hmem, hequal literal h⟩
  · obtain ⟨h1, h2, h3, h4⟩ := boundsMayMatch_of_accepts hlower hupper hgt hgte hlt hlte
    rw [heq, hin]
    simp [rangeMayMatch, hnulls, h1, h2, h3, h4]

def IcebergFileStats.identityPartition (stats : IcebergFileStats) (field : String) : Option Value := do
  let partitionValue ← stats.partitionValues.find? fun partitionValue =>
    partitionValue.sourceFieldName = field ∧ partitionValue.transform = "identity"
  partitionValue.value

def partitionMayMatch (predicate : ReadPredicate) (value : Value) : Bool :=
  match predicate.eq, predicate.inValues with
  | some eq, _ => compareScalarValues eq value = some .eq
  | none, some candidates => candidates.any fun candidate => compareScalarValues candidate value = some .eq
  | none, none => partitionRangeMayMatch value predicate

theorem partitionPredicateMayMatchFile_answer (stats : IcebergFileStats) (predicate : ReadPredicate) :
    (partitionPredicateMayMatchFile stats predicate).map Prod.fst =
      (stats.identityPartition predicate.field).map (partitionMayMatch predicate) := by
  simp only [partitionPredicateMayMatchFile, IcebergFileStats.identityPartition, bind_eq_bind]
  cases stats.partitionValues.find? fun partitionValue =>
      decide (partitionValue.sourceFieldName = predicate.field ∧ partitionValue.transform = "identity") with
  | none => rfl
  | some partitionValue =>
    rw [bind_some, bind_some]
    cases partitionValue.value <;> rfl

theorem IcebergFileStats.identityPartition_eq_some {stats : IcebergFileStats} {field : String} {partition : Value}
    (h : stats.identityPartition field = some partition) : ∃ partitionValue ∈ stats.partitionValues,
      partitionValue.sourceFieldName = field ∧ partitionValue.transform = "identity" ∧
        partitionValue.value = some partition := by
  simp only [identityPartition, bind_eq_bind, bind_eq_some_iff] at h
  obtain ⟨partitionValue, hfind, hvalue⟩ := h
  have hfound := List.find?_some hfind
  obtain ⟨hfield, hidentity⟩ := of_decide_eq_true hfound
  exact ⟨partitionValue, mem_of_find?_eq_some hfind, hfield, hidentity, hvalue⟩

theorem partitionMayMatch_of_accepts {partition : Value} (heqp : compareScalarValues value partition = some .eq)
    (haccepts : predicate.accepts compareScalarValues value = true) : partitionMayMatch predicate partition = true := by
  have hequal : ∀ literal, (compareScalarValues value literal).any (·.isEq) = true →
      compareScalarValues literal partition = some .eq := by
    intro literal h
    obtain ⟨o, ho, heq⟩ := (any_eq_true _ _).mp h
    cases o <;> cases heq
    refine compareScalarValues_of_eq ?_ heqp
    rw [compareScalarValues_swap value literal, ho]
    rfl
  unfold partitionMayMatch
  rcases predicate.accepts_cases haccepts with ⟨literal, heq, h⟩ | ⟨heq, literals, hin, literal, hmem, h⟩ |
    ⟨heq, hin, hgt, hgte, hlt, hlte⟩
  · rw [heq]
    exact decide_eq_true (hequal literal h)
  · rw [heq, hin]
    exact any_eq_true.mpr ⟨literal, hmem, decide_eq_true (hequal literal h)⟩
  have hnot : ∀ bad : Ordering, bad ≠ .eq → ∀ bound ∈ some partition, compareScalarValues value bound ≠ some bad := by
    rintro bad hbad bound ⟨⟩ h
    rw [heqp] at h
    exact hbad (Option.some.inj h).symm
  obtain ⟨h1, h2, h3, h4⟩ := boundsMayMatch_of_accepts (hnot .lt (by decide)) (hnot .gt (by decide))
    hgt hgte hlt hlte
  rw [heq, hin]
  simp [partitionRangeMayMatch, h1, h2, h3, h4]

end

theorem predicateMayMatchColumns_of_holds {columns : List IcebergColumnStats} {recordCount : Option Nat}
    {row : ServingRow} {predicate : ReadPredicate}
    (hvalid : ∀ column ∈ columns, ColumnStatsValid column recordCount row)
    (h : predicate.holds compareScalarValues row = true) :
    predicateMayMatchColumns columns recordCount predicate = true := by
  obtain ⟨value, hlookup, hnull, haccepts⟩ := predicate.holds_iff.mp h
  unfold predicateMayMatchColumns
  cases hfind : columns.find? fun stats => stats.fieldName = predicate.field with
  | none => rfl
  | some stats =>
    have hfound := List.find?_some hfind
    have hfield : stats.fieldName = predicate.field := of_decide_eq_true hfound
    exact predicateMayMatchStats_of_accepts (hvalid stats (mem_of_find?_eq_some hfind))
      (hfield ▸ hlookup) hnull haccepts

/-- **Pruning is sound.** A file whose statistics are valid for one of its rows survives a request that
the row satisfies. -/
theorem fileSurvives_of_holds {fileStats : Dict String IcebergFileStats} {request : ReadPlan}
    {file : FileDescriptor} {row : ServingRow}
    (hvalid : ∀ stats ∈ fileStats.lookup file.filePath, FileStatsValid stats row)
    (h : request.holds compareScalarValues row = true) :
    fileSurvives fileStats request file = true := by
  have hall : ∀ predicate ∈ request.filters, predicate.holds compareScalarValues row = true := all_eq_true.mp h
  unfold fileSurvives
  cases hstats : fileStats.lookup file.filePath with
  | none => rfl
  | some stats =>
    have hstatsValid := hvalid stats hstats
    refine Bool.and_eq_true_iff.mpr ⟨?_, ?_⟩
    · refine all_eq_true.mpr fun predicate hmem => ?_
      obtain ⟨value, hlookup, hnull, haccepts⟩ := predicate.holds_iff.mp (hall predicate hmem)
      rw [partitionPredicateMayMatchFile_answer]
      cases hpartition : stats.identityPartition predicate.field with
      | none => rfl
      | some partition =>
        obtain ⟨partitionValue, hmem, hfield, hidentity, hvalue⟩ := stats.identityPartition_eq_some hpartition
        exact partitionMayMatch_of_accepts
          (hstatsValid.partitions _ hmem hidentity partition hvalue value (hfield ▸ hlookup) hnull) haccepts
    split
    · exact all_eq_true.mpr fun predicate hmem =>
        predicateMayMatchColumns_of_holds hstatsValid.columns (hall predicate hmem)
    · rename_i hgroups
      obtain ⟨rowGroup, hgroup, hcolumns⟩ := hstatsValid.rowGroups hgroups
      refine any_eq_true.mpr ⟨rowGroup, hgroup, all_eq_true.mpr fun predicate hmem => ?_⟩
      exact predicateMayMatchColumns_of_holds hcolumns (hall predicate hmem)

end PowdrrEngine
