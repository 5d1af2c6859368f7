import PowdrrEngine.LibMerge
import PowdrrEngine.ServingExactOrder
import PowdrrEngine.ServingTopKExact

/-! The parallel plan: every file group is sorted and cut by SQL, and the answers are merged as they arrive.
The merge sees only the selected columns and compares numbers as doubles. -/

namespace PowdrrEngine

open List TopK

/-- The columns of a row that the SQL of a request selects. -/
def selectedColumns (request : ReadPlan) (row : ServingRow) : ServingRow :=
  match normalizedSelect request.select with
  | none => row
  | some fields => row.retain fun name _ => name ∈ fields

/-- `execute_parallel_plan`, with the answers of the file groups in the order in which they arrive. -/
def executeParallelPlan (text : Value → String) (request : ReadPlan) (limit : Nat) (results : List (List ServingRow)) :
    List ServingRow :=
  results.foldl (fun rows result => mergeRows text rows result request limit) []

/-- How `merge_rows` compares two rows: by what was selected of them. -/
def mergeOrder (text : Value → String) (request : ReadPlan) (sort : ReadSort) (left right : ServingRow) : Ordering :=
  rowOrder text sort.field sort.descending (selectedColumns request left) (selectedColumns request right)

section

variable {text : Value → String} {request : ReadPlan} {sort : ReadSort} {limit : Nat} {rows : List ServingRow}
  {type : ScalarType}

theorem executeParallelPlan_eq (hsort : request.orderBy.head? = some sort) (firsts : List (List ServingRow)) :
    executeParallelPlan text request limit (firsts.map (·.map (selectedColumns request))) =
      (mergeAll (mergeOrder text request sort) limit [] firsts).map (selectedColumns request) := by
  suffices hgen : ∀ merged, (firsts.map (·.map (selectedColumns request))).foldl
      (fun rows result => mergeRows text rows result request limit) (merged.map (selectedColumns request)) =
      (mergeAll (mergeOrder text request sort) limit merged firsts).map (selectedColumns request) from hgen []
  induction firsts with
  | nil => exact fun _ => rfl
  | cons first firsts ih =>
    intro merged
    have hmap := map_insertionSort (fun left right => (mergeOrder text request sort left right).isLE = true)
      (fun left right => (rowOrder text sort.field sort.descending left right).isLE = true)
      (selectedColumns request) (merged ++ first) fun _ _ _ _ => Iff.rfl
    rw [map_cons, foldl_cons, mergeRows, hsort, ← map_append]
    dsimp only
    rw [← hmap, ← map_take]
    exact ih _

theorem exists_coarser (text : Value → String) (request : ReadPlan)
    (htyped : ∀ row ∈ rows, type.holds (sortKey sort.field row)) :
    ∃ cmp : ServingRow → ServingRow → Ordering, Std.TransCmp cmp ∧ Coarser (sortKeyOrder sort) cmp rows ∧
      ∀ left ∈ rows, ∀ right ∈ rows, mergeOrder text request sort left right = cmp left right := by
  by_cases hselected : ∀ fields ∈ normalizedSelect request.select, sort.field ∈ fields
  · obtain ⟨kind, hkind⟩ := type.kind
    have hkinds : ∀ row ∈ rows, kind.holds (sortKey sort.field row) := fun row hrow =>
      (htyped row hrow).imp_right (hkind _)
    have hlookup : ∀ row, (selectedColumns request row).lookup sort.field = row.lookup sort.field := by
      intro row
      unfold selectedColumns
      split
      · rfl
      · rename_i fields hfields
        cases h : row.lookup sort.field <;> simp [Dict.lookup_retain, h, hselected fields hfields]
    refine ⟨keyOrder sort, inferInstance, fun left hleft right hright hle => ?_, fun left hleft right hright => ?_⟩
    · refine sortedOrder_isLE_of_sqlOrder (hkinds left hleft) (hkinds right hright) ?_
      rw [sqlOrder_of_holds (htyped left hleft) (htyped right hright)]
      exact Ordering.isLE_iff_ne_gt.mp hle
    · rw [mergeOrder, rowOrder, hlookup, hlookup]
      exact rowOrder_eq_keyOrder (hkinds left hleft) (hkinds right hright)
  · push Not at hselected
    obtain ⟨fields, hfields, hnot⟩ := hselected
    have hlookup : ∀ row, (selectedColumns request row).lookup sort.field = none := by
      intro row
      simp [selectedColumns, Option.mem_def.mp hfields, Dict.lookup_retain, hnot]
    refine ⟨fun _ _ => .eq, { eq_swap := rfl, isLE_trans := fun _ _ => rfl }, fun _ _ _ _ _ => rfl,
      fun left _ right _ => ?_⟩
    rw [mergeOrder, rowOrder, hlookup, hlookup]
    cases sort.descending <;> rfl

/-- **The parallel plan.** However the rows are split into file groups and in whatever order these answer, it
returns the first rows of all exactly if rows that are selected alike are all that `merge_rows` takes for
equal where SQL does not. -/
theorem executeParallelPlan_iff (hsort : request.orderBy.head? = some sort)
    (htyped : ∀ row ∈ rows, type.holds (sortKey sort.field row)) :
    (∀ limit groups firsts, groups.flatten.Perm rows → List.Forall₂ (IsFirst (sortKeyOrder sort) limit) groups firsts →
      ∃ first, IsFirst (sortKeyOrder sort) limit rows first ∧
        executeParallelPlan text request limit (firsts.map (·.map (selectedColumns request))) =
          first.map (selectedColumns request)) ↔
    ∀ left ∈ rows, ∀ right ∈ rows, sortKeyOrder sort left right = .lt → mergeOrder text request sort left right = .eq →
      selectedColumns request left = selectedColumns request right := by
  obtain ⟨cmp, _, hcoarser, hcmp⟩ := exists_coarser text request htyped
  have halike : ShownAlike (sortKeyOrder sort) cmp (selectedColumns request) rows ↔
      ShownAlike (sortKeyOrder sort) (mergeOrder text request sort) (selectedColumns request) rows := by
    refine forall₂_congr fun left hleft => forall₂_congr fun right hright => ?_
    rw [hcmp left hleft right hright]
  refine Iff.trans ?_ ((showsFirst_iff hcoarser).trans halike)
  refine forall_congr' fun limit => forall_congr' fun groups => forall_congr' fun firsts =>
    forall₂_congr fun hperm hfirsts => ?_
  have hsub : ∀ first ∈ firsts, first ⊆ rows := by
    intro first hfirst row hrow
    obtain ⟨group, hgroup, h⟩ := Lists.exists_mem_of_forall₂ hfirsts hfirst
    exact hperm.mem_iff.mp (mem_flatten_of_mem hgroup (h.mem hrow))
  rw [executeParallelPlan_eq hsort, mergeAll_congr hcmp (nil_subset _) hsub]

end

/-! ### Two rows by their score -/

def scoredRow (id : String) (n : Nat) : ServingRow := (Dict.single "id" (.string id)).insert "score" (score n)

def scoredPlan (select : Option (List String)) : ReadPlan := { select, orderBy := [⟨"score", false⟩] }

theorem executeParallelPlan_iff_scored : ∃ first,
    IsFirst (sortKeyOrder ⟨"score", false⟩) 1 [scoredRow "a" 5, scoredRow "b" 10] first ∧
      executeParallelPlan (fun _ => "") (scoredPlan none) 1 [[scoredRow "b" 10], [scoredRow "a" 5]] =
        first.map (selectedColumns (scoredPlan none)) := by
  have hfirst : ∀ row : ServingRow, IsFirst (sortKeyOrder ⟨"score", false⟩) 1 [row] [row] := fun row =>
    ⟨[row], .refl _, pairwise_singleton _ _, rfl⟩
  have htyped : ∀ row ∈ [scoredRow "a" 5, scoredRow "b" 10], ScalarType.integer.holds (sortKey "score" row) := by
    simpa using ⟨Or.inr rfl, Or.inr rfl⟩
  refine (executeParallelPlan_iff rfl htyped).mpr ?_ 1 [[scoredRow "b" 10], [scoredRow "a" 5]] _
    (.swap _ _ _) (.cons (hfirst _) (.cons (hfirst _) .nil))
  decide +kernel

/-- The score is not selected: the group that answers first wins. -/
theorem executeParallelPlan_unselected : ¬ ∃ first,
    IsFirst (sortKeyOrder ⟨"score", false⟩) 1 [scoredRow "a" 5, scoredRow "b" 10] first ∧
      executeParallelPlan (fun _ => "") (scoredPlan (some ["id"])) 1
        ([[scoredRow "b" 10], [scoredRow "a" 5]].map (·.map (selectedColumns (scoredPlan (some ["id"]))))) =
        first.map (selectedColumns (scoredPlan (some ["id"]))) := by
  rintro ⟨_, ⟨l, hperm, hsorted, rfl⟩, heq⟩
  rcases Lists.eq_or_eq_of_perm_pair hperm with rfl | rfl
  · exact absurd (congrArg (map (AList.lookup "id")) heq) (by decide +kernel)
  · revert hsorted
    decide +kernel

end PowdrrEngine
