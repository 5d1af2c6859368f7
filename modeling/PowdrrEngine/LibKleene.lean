import Mathlib.Data.List.Basic

/-! Three-valued logic: `none` is the unknown truth value. -/

namespace Kleene

def not (a : Option Bool) : Option Bool := a.map Bool.not

/-- The conjunction of a list. -/
def all (l : List (Option Bool)) : Option Bool :=
  if some false ∈ l then some false else if none ∈ l then none else some true

/-- The disjunction of a list. -/
def any (l : List (Option Bool)) : Option Bool :=
  if some true ∈ l then some true else if none ∈ l then none else some false

theorem all_eq_true {l : List (Option Bool)} : all l = some true ↔ ∀ a ∈ l, a = some true := by
  unfold all
  split
  · rename_i hfalse
    refine ⟨nofun, fun h => ?_⟩
    cases h _ hfalse
  rename_i hfalse
  split
  · rename_i hnone
    refine ⟨nofun, fun h => ?_⟩
    cases h _ hnone
  rename_i hnone
  refine ⟨fun _ a ha => ?_, fun _ => rfl⟩
  cases a with
  | none => exact absurd ha hnone
  | some b =>
    cases b with
    | false => exact absurd ha hfalse
    | true => rfl

theorem any_eq_true {l : List (Option Bool)} : any l = some true ↔ some true ∈ l := by
  unfold any
  split
  · rename_i htrue
    exact ⟨fun _ => htrue, fun _ => rfl⟩
  · rename_i htrue
    split
    · exact ⟨nofun, fun h => absurd h htrue⟩
    · exact ⟨nofun, fun h => absurd h htrue⟩

end Kleene
