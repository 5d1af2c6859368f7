import Mathlib.Data.List.Basic
import Mathlib.Data.String.Basic

/-! Keys glued from texts with a separator character. Two glued keys are equal only if their parts
are, provided the parts on one side of the separator do not contain it. Decimal numerals never
contain a separator that is not a digit. The lists that start with a list are a range of the
lexicographic order. -/

namespace Text

open List String Nat

variable {α : Type}

theorem append_cons_inj_of_notMem_left {c : α} {a a' b b' : List α} (ha : c ∉ a) (ha' : c ∉ a')
    (h : a ++ c :: b = a' ++ c :: b') : a = a' ∧ b = b' := by
  induction a generalizing a' with
  | nil =>
    cases a' with
    | nil =>
      injection h with _ hb
      exact ⟨rfl, hb⟩
    | cons x a' =>
      injection h with hx _
      exact absurd (hx ▸ mem_cons_self) ha'
  | cons x a ih =>
    cases a' with
    | nil =>
      injection h with hx _
      exact absurd (hx ▸ mem_cons_self) ha
    | cons y a' =>
      injection h with hx hrest
      obtain ⟨rfl, hb⟩ := ih (fun hm => ha (mem_cons_of_mem _ hm))
        (fun hm => ha' (mem_cons_of_mem _ hm)) hrest
      exact ⟨by rw [hx], hb⟩

theorem append_cons_inj_of_notMem_right {c : α} {a a' b b' : List α} (hb : c ∉ b) (hb' : c ∉ b')
    (h : a ++ c :: b = a' ++ c :: b') : a = a' ∧ b = b' := by
  have hrev : b.reverse ++ c :: a.reverse = b'.reverse ++ c :: a'.reverse := by
    simpa using congrArg List.reverse h
  obtain ⟨hbb, haa⟩ := append_cons_inj_of_notMem_left (by simpa using hb) (by simpa using hb') hrev
  exact ⟨reverse_injective haa, reverse_injective hbb⟩

theorem toList_glue (a b : String) (c : Char) : (a ++ String.singleton c ++ b).toList = a.toList ++ c :: b.toList := by
  simp [toList_append]

theorem glue_inj_of_notMem_left {c : Char} {a a' b b' : String} (ha : c ∉ a.toList) (ha' : c ∉ a'.toList)
    (h : a ++ String.singleton c ++ b = a' ++ String.singleton c ++ b') : a = a' ∧ b = b' := by
  have hl := congrArg String.toList h
  rw [toList_glue, toList_glue] at hl
  obtain ⟨h1, h2⟩ := append_cons_inj_of_notMem_left ha ha' hl
  exact ⟨toList_inj.mp h1, toList_inj.mp h2⟩

theorem glue_inj_of_notMem_right {c : Char} {a a' b b' : String} (hb : c ∉ b.toList)
    (hb' : c ∉ b'.toList) (h : a ++ String.singleton c ++ b = a' ++ String.singleton c ++ b') :
    a = a' ∧ b = b' := by
  have hl := congrArg String.toList h
  rw [toList_glue, toList_glue] at hl
  obtain ⟨h1, h2⟩ := append_cons_inj_of_notMem_right hb hb' hl
  exact ⟨toList_inj.mp h1, toList_inj.mp h2⟩

theorem toString_nat_injective : Function.Injective (fun n : Nat => toString n) := by
  intro i j h
  have hd : Nat.toDigits 10 i = Nat.toDigits 10 j := by
    rw [← toList_repr, ← toList_repr]
    exact congrArg String.toList h
  rw [← ofDigitChars_ten_toDigits (n := i), ← ofDigitChars_ten_toDigits (n := j), hd]

theorem underscore_notMem_toString_nat (n : Nat) : '_' ∉ (toString n).toList := by
  change '_' ∉ n.repr.toList
  rw [toList_repr]
  exact underscore_not_in_toDigits

/-! ### Lists that start with a list -/

variable [LinearOrder α] {a next : α} {l x y s : List α}

theorem append_lt_append_iff : l ++ x < l ++ y ↔ x < y := by
  induction l with
  | nil => rfl
  | cons b l ih => simp [ih]

theorem prefix_of_between (hx : ¬ s < l ++ x) (hy : s < l ++ y) : l <+: s := by
  induction l generalizing s with
  | nil => exact nil_prefix
  | cons b l ih =>
    cases s with
    | nil => exact absurd (nil_lt_cons _ _) hx
    | cons c s =>
      rw [cons_append, cons_lt_cons_iff] at hx hy
      rcases hy with hcb | ⟨rfl, hy⟩
      · exact absurd (Or.inl hcb) hx
      · exact cons_prefix_cons.mpr ⟨rfl, ih (fun hlt => hx (Or.inr ⟨rfl, hlt⟩)) hy⟩

theorem prefix_not_lt (h : l <+: s) : ¬ s < l := by
  obtain ⟨t, rfl⟩ := h
  rw [← append_nil l, List.append_assoc, append_lt_append_iff]
  exact not_lt_nil _

/-- The lists that start with a list are those from it on up to the list with its last member replaced by
the next one. -/
theorem prefix_iff_of_next (h : ∀ c, c < next ↔ c ≤ a) : l ++ [a] <+: s ↔ ¬ s < l ++ [a] ∧ s < l ++ [next] := by
  constructor
  · intro hprefix
    refine ⟨prefix_not_lt hprefix, ?_⟩
    obtain ⟨t, rfl⟩ := hprefix
    rw [List.append_assoc, append_lt_append_iff]
    exact cons_lt_cons_iff.mpr (Or.inl ((h a).mpr le_rfl))
  · rintro ⟨hle, hlt⟩
    obtain ⟨t, rfl⟩ := prefix_of_between hle hlt
    rw [append_lt_append_iff] at hle hlt
    rw [prefix_append_right_inj]
    cases t with
    | nil => exact absurd (nil_lt_cons _ _) hle
    | cons c t =>
      simp only [cons_lt_cons_iff, not_lt_nil, and_false, or_false, h, not_lt] at hle hlt
      rw [le_antisymm hlt hle]
      exact cons_prefix_cons.mpr ⟨rfl, nil_prefix⟩

/-- A greatest member has no next one; then the list in front of it decides. -/
theorem prefix_iff_of_greatest (h : ∀ c, c ≤ a) : l ++ [a] <+: s ↔ ¬ s < l ++ [a] ∧ l <+: s := by
  constructor
  · exact fun hprefix => ⟨prefix_not_lt hprefix, (prefix_append l [a]).trans hprefix⟩
  · rintro ⟨hle, t, rfl⟩
    rw [append_lt_append_iff] at hle
    rw [prefix_append_right_inj]
    cases t with
    | nil => exact absurd (nil_lt_cons _ _) hle
    | cons c t =>
      simp only [cons_lt_cons_iff, not_lt_nil, and_false, or_false, not_lt] at hle
      rw [le_antisymm (h c) hle]
      exact cons_prefix_cons.mpr ⟨rfl, nil_prefix⟩

end Text
