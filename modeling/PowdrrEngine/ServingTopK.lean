import PowdrrEngine.ServingPruningExact
import PowdrrEngine.ServingLookupSpec

/-! Ordered top-k: the files of a checkpoint are read in groups, the group with the best bound on the sort
column first, and reading stops when the bound of the next group is behind the last of the rows wanted.
The bounds come from the statistics of the sort column, where null has no place. -/

namespace PowdrrEngine

/-! ### Bounds on the sort column -/

section

variable (text : Value → String)

def compareSortValues (left right : Value) (descending : Bool) : Ordering :=
  compareRowValues text (some left) (some right) descending

/-- One round of the loops that look for the best bound. -/
def keepBest (descending : Bool) (best : Option Value) (candidate : Value) : Option Value :=
  if best.all fun best => compareSortValues text candidate best descending = .lt then some candidate else best

def columnSortBound (column : IcebergColumnStats) (recordCount : Option Nat) (descending : Bool) : Option Value :=
  if columnIsAllNull column recordCount then some .null
  else if descending then column.upperBound
  else column.lowerBound

def rowGroupSortBound (rowGroup : IcebergRowGroupStats) (sortField : String) (descending : Bool) : Option Value := do
  let column ← rowGroup.columns.find? fun column => column.fieldName = sortField
  columnSortBound column rowGroup.recordCount descending

def sortOrderSupportsField (sortOrder : List IcebergSortField) (sortField : String) : Bool :=
  sortOrder.head?.any fun field => field.sourceFieldName = sortField ∧ field.transform = "identity"

def partitionValueSortBound (stats : IcebergFileStats) (sortField : String) : Option Value :=
  stats.identityPartition sortField

def fileLevelSortBound (stats : IcebergFileStats) (sortOrder : List IcebergSortField) (sortField : String)
    (descending : Bool) : Option Value :=
  match stats.columns.find? fun column => column.fieldName = sortField with
  | some column => columnSortBound column stats.recordCount descending
  | none =>
    if sortOrderSupportsField sortOrder sortField then partitionValueSortBound stats sortField else none

/-- The loop of `file_sort_bound` over the row groups: one without a bound sends it to the bound of the
file. -/
def rowGroupsSortBound (sortField : String) (descending : Bool) (fileLevel : Option Value) :
    List IcebergRowGroupStats → Option Value → Option Value
  | [], best => best
  | rowGroup :: rowGroups, best =>
    match rowGroupSortBound rowGroup sortField descending with
    | none => fileLevel
    | some candidate =>
      rowGroupsSortBound sortField descending fileLevel rowGroups (keepBest text descending best candidate)

/-- The best value of the row groups that may match, or that of the file. -/
def fileSortBound (fileStats : Dict String IcebergFileStats) (sortOrder : List IcebergSortField)
    (request : ReadPlan) (sortField : String) (descending : Bool) (file : FileDescriptor) :
    Option Value := do
  let stats ← fileStats.lookup file.filePath
  let fileLevel := fileLevelSortBound stats sortOrder sortField descending
  let matching := stats.rowGroups.filter fun rowGroup => rowGroupMayMatchRequest rowGroup request
  if stats.rowGroups = [] then fileLevel
  else rowGroupsSortBound text sortField descending fileLevel matching none

/-- The loop of `file_group_sort_bound`: every file must have a bound. -/
def fileGroupSortBound (fileBound : FileDescriptor → Option Value) (descending : Bool) :
    List FileDescriptor → Option Value → Option Value
  | [], best => best
  | file :: files, best => do
    let candidate ← fileBound file
    fileGroupSortBound fileBound descending files (keepBest text descending best candidate)

/-! ### Groups -/

def pushBySchema (file : FileDescriptor) : List (List FileDescriptor) → List (List FileDescriptor)
  | [] => [[file]]
  | group :: groups =>
    if group.head?.any fun existing => existing.schema = file.schema then (group ++ [file]) :: groups
    else group :: pushBySchema file groups

def groupFilesBySchema (files : List FileDescriptor) : List (List FileDescriptor) :=
  files.foldl (fun groups file => pushBySchema file groups) []

structure OrderedFileGroup where
  files : List FileDescriptor
  bestCaseSortValue : Value

/-- None where a group has no bound; otherwise the best group comes first. -/
def orderedFileGroupsForTopK (files : List FileDescriptor) (fileStats : Dict String IcebergFileStats)
    (sortOrder : List IcebergSortField) (request : ReadPlan) (sortField : String) (descending : Bool) :
    Option (List OrderedFileGroup) := do
  let groups ← (groupFilesBySchema files).mapM fun group =>
    (fileGroupSortBound text (fileSortBound text fileStats sortOrder request sortField descending) descending
      group none).map fun bound => OrderedFileGroup.mk group bound
  some (groups.insertionSort fun left right =>
    (compareSortValues text left.bestCaseSortValue right.bestCaseSortValue descending).isLE = true)

/-! ### Execution -/

/-- The first rows of both; without a sort, four times the limit. -/
def mergeRows (rows newRows : List ServingRow) (request : ReadPlan) (limit : Nat) : List ServingRow :=
  match request.orderBy.head? with
  | some sort =>
    ((rows ++ newRows).insertionSort fun left right =>
      (rowOrder text sort.field sort.descending left right).isLE = true).take limit
  | none => (rows ++ newRows).take (max (limit * 4) limit)

/-- A missing sort value never stops the loop. -/
def remainingGroupsCannotBeatKthRow (rows : List ServingRow) (nextBestSortValue : Value) (sort : ReadSort)
    (limit : Nat) : Bool :=
  if limit = 0 ∨ rows.length < limit then false
  else
    match rows[limit - 1]?.bind fun row => row.lookup sort.field with
    | none => false
    | some kthRowValue => compareSortValues text nextBestSortValue kthRowValue sort.descending = .gt

/-- The loop of `execute_ordered_top_k_plan`, with the groups it has not reached. `execute` runs the
query of the plan on the files of a group. -/
def executeOrderedTopKLoop (execute : List FileDescriptor → List ServingRow) (request : ReadPlan)
    (sort : ReadSort) (limit : Nat) :
    List OrderedFileGroup → List ServingRow → List ServingRow × List OrderedFileGroup
  | [], rows => (rows, [])
  | group :: groups, rows =>
    let rows := mergeRows text rows (execute group.files) request limit
    if groups.head?.any fun next =>
        remainingGroupsCannotBeatKthRow text rows next.bestCaseSortValue sort limit then (rows, groups)
    else executeOrderedTopKLoop execute request sort limit groups rows

def executeOrderedTopKPlan (execute : List FileDescriptor → List ServingRow) (groups : List OrderedFileGroup)
    (request : ReadPlan) (limit : Nat) : List ServingRow :=
  match request.orderBy.head? with
  | none => []
  | some sort => (executeOrderedTopKLoop text execute request sort limit groups []).1

end

end PowdrrEngine
