import Mathlib.Data.Set.Basic

/-! Merge on read. A table is a set of rows together with a set of keys that are deleted; a row is live
when its key is not. Compaction reads the rows and the deleted keys it consumes, and writes the rows
that are live among them. Dropping the consumed keys is then right for the rows it has read, and wrong
for any other row that only those keys hold back. -/

namespace MergeOnRead

variable {α κ : Type*} (key : α → κ)

/-- The rows whose key is not deleted. -/
def live (rows : Set α) (dead : Set κ) : Set α := {row | row ∈ rows ∧ key row ∉ dead}

variable {key}

theorem mem_live {rows : Set α} {dead : Set κ} {row : α} :
    row ∈ live key rows dead ↔ row ∈ rows ∧ key row ∉ dead := Iff.rfl

theorem live_union (rows rows' : Set α) (dead : Set κ) :
    live key (rows ∪ rows') dead = live key rows dead ∪ live key rows' dead := by
  ext row
  simp [mem_live, or_and_right]

theorem live_live (rows : Set α) (dead dead' : Set κ) :
    live key (live key rows dead) dead' = live key rows (dead' ∪ dead) := by
  ext row
  simp [mem_live, and_assoc, and_comm]

/-- Compacting `consumed` under `consumedDead` keeps the live rows exactly when every kept row that a
consumed key deletes is deleted by a kept key too. -/
theorem live_compacted_eq_iff {kept consumed : Set α} {keptDead consumedDead : Set κ} :
    live key (kept ∪ live key consumed consumedDead) keptDead = live key (kept ∪ consumed) (keptDead ∪ consumedDead) ↔
      ∀ row ∈ kept, key row ∈ consumedDead → key row ∈ keptDead := by
  rw [live_union, live_union, live_live]
  constructor
  · intro heq row hrow hdead
    by_contra hkept
    have hleft : row ∈ live key kept keptDead ∪ live key consumed (keptDead ∪ consumedDead) := Or.inl ⟨hrow, hkept⟩
    rw [heq] at hleft
    rcases hleft with ⟨-, h⟩ | ⟨-, h⟩ <;> exact h (Or.inr hdead)
  intro hkept
  congr 1
  ext row
  constructor
  · rintro ⟨hrow, hlive⟩
    exact ⟨hrow, fun h => hlive (h.elim id (hkept row hrow))⟩
  · rintro ⟨hrow, hlive⟩
    exact ⟨hrow, fun h => hlive (Or.inl h)⟩

end MergeOnRead
