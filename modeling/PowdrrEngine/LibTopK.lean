import Mathlib.Data.List.Sort
import Mathlib.Data.List.Forall2

/-! The first elements of a collection under a comparison that may tie. What is first is fixed up to
ties; it can be put together from the first elements of parts, and a part can be left out where none of
it comes before the last of what was found. -/

namespace TopK

open List Ordering

variable {α : Type*} {cmp : α → α → Ordering} {cmp' : α → α → Ordering} {l : List α} {x : α} {l' : List α}

section

variable [Std.TransCmp cmp] {a b c : α} {o : Ordering}

theorem eq_of_ne_swap (ho : o ≠ .eq) (hab : cmp a b ≠ o.swap) (hbc : cmp b c = o) : cmp a c = o := by
  cases o with
  | eq => exact absurd rfl ho
  | lt => exact Std.TransCmp.lt_of_isLE_of_lt (isLE_iff_ne_gt.mpr hab) hbc
  | gt => exact Std.TransCmp.gt_of_isGE_of_gt (isGE_iff_ne_lt.mpr hab) hbc

end

/-- A list in the order of a comparison; ties keep their order. -/
def sort (cmp : α → α → Ordering) (l : List α) : List α := l.insertionSort fun a b => (cmp a b).isLE = true

theorem insertionSort_eq_sort (h : ∀ a ∈ l, ∀ b ∈ l, cmp a b = cmp' a b) :
    l.insertionSort (fun a b => (cmp a b).isLE = true) = sort cmp' l := by
  have hmap := map_insertionSort (fun a b => (cmp a b).isLE = true)
    (fun a b => (cmp' a b).isLE = true) id l fun a ha b hb => by rw [id, id, h a ha b hb]
  rwa [map_id, map_id] at hmap

/-- No later member comes before an earlier one. -/
abbrev Sorted (cmp : α → α → Ordering) (l : List α) : Prop := l.Pairwise fun a b => (cmp a b).isLE = true

/-- `out` are the first `k` of `all`, ties in any order. -/
def IsFirst (cmp : α → α → Ordering) (k : Nat) (all out : List α) : Prop :=
  ∃ l : List α, l.Perm all ∧ Sorted cmp l ∧ out = l.take k

theorem isLE_of_mem_drop {k : Nat} {a b : α} (hl : Sorted cmp l) (ha : a ∈ l.take k) (hb : b ∈ l.drop k) :
    (cmp a b).isLE = true := by
  rw [← take_append_drop k l] at hl
  exact (pairwise_append.mp hl).2.2 a ha b hb

theorem isFirst_nil {k : Nat} : IsFirst cmp k [] [] := ⟨[], .refl [], .nil, take_nil.symm⟩

/-- Two lists that the comparison cannot tell apart. -/
abbrev SameKeys (cmp : α → α → Ordering) (l l' : List α) : Prop := List.Forall₂ (fun a b => cmp a b = .eq) l l'

theorem sameKeys_congr (h : ∀ a ∈ l, ∀ b ∈ l', cmp a b = cmp' a b) : SameKeys cmp l l' ↔ SameKeys cmp' l l' := by
  simp only [SameKeys, forall₂_iff_get, get_eq_getElem]
  refine and_congr_right fun _ => forall_congr' fun i => forall_congr' fun hi => forall_congr' fun hi' => ?_
  rw [h _ (getElem_mem hi) _ (getElem_mem hi')]

/-- How many members of a list do not come after `x`. -/
def upTo (cmp : α → α → Ordering) (x : α) (l : List α) : Nat := l.countP fun a => (cmp a x).isLE

theorem upTo_append (x : α) (l l' : List α) : upTo cmp x (l ++ l') = upTo cmp x l + upTo cmp x l' := countP_append

theorem upTo_cons_of_isLE {a : α} (h : (cmp a x).isLE = true) (l : List α) : upTo cmp x (a :: l) = upTo cmp x l + 1 :=
  countP_cons_of_pos h

theorem upTo_perm (h : l.Perm l') : upTo cmp x l = upTo cmp x l' := h.countP_eq _

theorem upTo_eq_length (h : ∀ a ∈ l, (cmp a x).isLE = true) : upTo cmp x l = l.length := countP_eq_length.mpr h

theorem upTo_eq_zero (h : ∀ a ∈ l, cmp a x = .gt) : upTo cmp x l = 0 := by
  refine countP_eq_zero.mpr fun a ha => ?_
  rw [h a ha]
  decide

namespace IsFirst

variable {k : Nat} {all out : List α} (h : IsFirst cmp k all out)

include h

theorem sorted : Sorted cmp out := by
  obtain ⟨l, -, hl, rfl⟩ := h
  exact hl.sublist (take_sublist k l)

theorem mem {a : α} (ha : a ∈ out) : a ∈ all := by
  obtain ⟨l, hperm, -, rfl⟩ := h
  exact hperm.mem_iff.mp (mem_of_mem_take ha)

theorem perm {all' : List α} (hperm : all.Perm all') : IsFirst cmp k all' out := by
  obtain ⟨l, hl, hsorted, rfl⟩ := h
  exact ⟨l, hl.trans hperm, hsorted, rfl⟩

theorem length_eq : out.length = min k all.length := by
  obtain ⟨l, hperm, -, rfl⟩ := h
  rw [length_take, hperm.length_eq]

theorem take {n : Nat} (hn : n ≤ k) : IsFirst cmp n all (out.take n) := by
  obtain ⟨l, hperm, hsorted, rfl⟩ := h
  exact ⟨l, hperm, hsorted, by rw [take_take, Nat.min_eq_left hn]⟩

theorem length_le : out.length ≤ k := by
  obtain ⟨l, -, -, rfl⟩ := h
  exact length_take_le k l

end IsFirst

section

variable [Std.TransCmp cmp] {p : α → Bool} {i : Nat} {l' : List α}

theorem isLE_self (a : α) : (cmp a a).isLE = true := Std.ReflCmp.isLE_rfl

theorem sorted_sort (l : List α) : Sorted cmp (sort cmp l) := by
  have : Std.Total fun a b : α => (cmp a b).isLE = true := ⟨fun a b => by
    rcases h : cmp a b with _ | _ | _
    · exact Or.inl rfl
    · exact Or.inl rfl
    · exact Or.inr (by rw [Std.OrientedCmp.lt_of_gt h]; rfl)⟩
  have : IsTrans α fun a b : α => (cmp a b).isLE = true := ⟨fun _ _ _ => Std.TransCmp.isLE_trans⟩
  exact pairwise_insertionSort _ l

theorem isLE_getLast (hl : Sorted cmp l) {a last : α} (ha : a ∈ l)
    (hlast : l.getLast? = some last) : (cmp a last).isLE = true := by
  obtain ⟨front, rfl⟩ := List.getLast?_eq_some_iff.mp hlast
  rcases mem_append.mp ha with ha | ha
  · exact (pairwise_append.mp hl).2.2 a ha last mem_cons_self
  · rw [mem_singleton.mp ha]
    exact isLE_self last

theorem eq_filter_append (hl : Sorted cmp l) (hp : ∀ a ∈ l, ∀ b ∈ l, p a = true → p b = false → cmp a b = .lt) :
    l = l.filter p ++ l.filter fun a => !p a := by
  induction l with
  | nil => rfl
  | cons a l ih =>
    obtain ⟨hfirst, hrest⟩ := pairwise_cons.mp hl
    have hp' : ∀ b ∈ l, ∀ c ∈ l, p b = true → p c = false → cmp b c = .lt := fun b hb c hc =>
      hp b (mem_cons_of_mem _ hb) c (mem_cons_of_mem _ hc)
    cases ha : p a with
    | true =>
      rw [filter_cons_of_pos ha, filter_cons_of_neg (by simp [ha]), cons_append, ← ih hrest hp']
    | false =>
      -- nothing behind the first member comes before it
      have hnone : ∀ b ∈ a :: l, p b = false := by
        intro b hb
        rcases mem_cons.mp hb with rfl | hb
        · exact ha
        refine Bool.eq_false_iff.mpr fun hpb => ?_
        have hlt := hp b (mem_cons_of_mem _ hb) a mem_cons_self hpb ha
        have hle := hfirst b hb
        rw [Std.OrientedCmp.gt_of_lt hlt] at hle
        cases hle
      rw [filter_eq_nil_iff.mpr fun b hb => by rw [hnone b hb]; decide,
        filter_eq_self.mpr fun b hb => by rw [hnone b hb]; rfl, nil_append]

theorem IsFirst.filter {all out : List α} {k : Nat} (h : IsFirst cmp k all out)
    (hp : ∀ a ∈ all, ∀ b ∈ all, p a = true → p b = false → cmp a b = .lt)
    (hk : k ≤ (all.filter p).length) : IsFirst cmp k (all.filter p) out := by
  obtain ⟨l, hperm, hl, rfl⟩ := h
  refine ⟨l.filter p, hperm.filter p, hl.filter p, ?_⟩
  have hsplit := eq_filter_append hl fun a ha b hb => hp a (hperm.mem_iff.mp ha) b (hperm.mem_iff.mp hb)
  have hlength : k ≤ (l.filter p).length := by rwa [(hperm.filter p).length_eq]
  conv_lhs => rw [hsplit]
  exact take_append_of_le_length hlength

theorem isFirst_sort (k : Nat) (all : List α) : IsFirst cmp k all ((sort cmp all).take k) :=
  ⟨sort cmp all, perm_insertionSort _ _, sorted_sort all, rfl⟩

/-! ### Counting -/

section

variable (hl : Sorted cmp l)

include hl

theorem isLE_of_lt_upTo (hi : i < l.length) (h : i < upTo cmp x l) : (cmp l[i] x).isLE = true := by
  induction l generalizing i with
  | nil => exact absurd hi (Nat.not_lt_zero i)
  | cons a l ih =>
    obtain ⟨ha, hl⟩ := pairwise_cons.mp hl
    by_cases hax : (cmp a x).isLE = true
    · cases i with
      | zero => exact hax
      | succ i =>
        rw [upTo_cons_of_isLE hax] at h
        exact ih hl (by simpa using hi) (by omega)
    -- what comes after `a` comes after `x` too
    have hgt : cmp a x = .gt := by
      cases hcmp : cmp a x <;> simp [hcmp] at hax ⊢
    have hzero : upTo cmp x (a :: l) = 0 := by
      refine upTo_eq_zero fun b hb => ?_
      rcases mem_cons.mp hb with rfl | hb
      · exact hgt
      · exact Std.TransCmp.gt_of_isGE_of_gt (Std.OrientedCmp.isGE_of_isLE (ha b hb)) hgt
    omega

theorem isLE_of_mem_take {k : Nat} (h : k ≤ upTo cmp x l) :
    ∀ a ∈ l.take k, (cmp a x).isLE = true := by
  intro a ha
  obtain ⟨i, hi, rfl⟩ := getElem_of_mem ha
  have hik : i < k ∧ i < l.length := by simpa using hi
  rw [getElem_take]
  exact isLE_of_lt_upTo hl hik.2 (by omega)

theorem lt_upTo_getElem (hi : i < l.length) : i < upTo cmp l[i] l := by
  induction l generalizing i with
  | nil => exact absurd hi (Nat.not_lt_zero i)
  | cons a l ih =>
    obtain ⟨ha, hl⟩ := pairwise_cons.mp hl
    cases i with
    | zero =>
      have hself : upTo cmp a (a :: l) = upTo cmp a l + 1 := upTo_cons_of_isLE (isLE_self a) l
      rw [getElem_cons_zero, hself]
      omega
    | succ i =>
      have hi' : i < l.length := by simpa using hi
      have hle : (cmp a l[i]).isLE = true := ha _ (getElem_mem hi')
      rw [getElem_cons_succ, upTo_cons_of_isLE hle]
      exact Nat.succ_lt_succ (ih hl hi')

theorem isLE_getElem_of_upTo_le (hl' : Sorted cmp l') (h : ∀ x, upTo cmp x l' ≤ upTo cmp x l)
    (hi : i < l.length) (hi' : i < l'.length) :
    (cmp l[i] l'[i]).isLE = true :=
  isLE_of_lt_upTo hl hi ((lt_upTo_getElem hl' hi').trans_le (h _))

theorem sameKeys_of_perm (hl' : Sorted cmp l') (h : l.Perm l') : SameKeys cmp l l' := by
  refine forall₂_iff_get.mpr ⟨h.length_eq, fun i hi hi' => ?_⟩
  have hle := isLE_getElem_of_upTo_le hl hl' (fun _ => (upTo_perm h.symm).le) hi hi'
  have hge := isLE_getElem_of_upTo_le hl' hl (fun _ => (upTo_perm h).le) hi' hi
  exact Std.OrientedCmp.isLE_antisymm hle hge

end

theorem upTo_sameKeys (h : SameKeys cmp l l') : upTo cmp x l = upTo cmp x l' := by
  induction h with
  | nil => rfl
  | cons hab _ ih =>
    unfold upTo at ih ⊢
    rw [countP_cons, countP_cons, ih, Std.TransCmp.congr_left hab]

/-! ### First elements -/

namespace IsFirst

variable {k : Nat} {all out : List α}

theorem sameKeys {out' : List α} (h : IsFirst cmp k all out) (h' : IsFirst cmp k all out') : SameKeys cmp out out' := by
  obtain ⟨l, hperm, hl, rfl⟩ := h
  obtain ⟨l', hperm', hl', rfl⟩ := h'
  exact forall₂_take k (sameKeys_of_perm hl hl' (hperm.trans hperm'.symm))

theorem of_rest (rest : List α) (hperm : (out ++ rest).Perm all) (hsorted : Sorted cmp out)
    (hle : out.length ≤ k) (hfull : rest ≠ [] → out.length = k)
    (hrest : ∀ a ∈ out, ∀ b ∈ rest, (cmp a b).isLE = true) : IsFirst cmp k all out := by
  refine ⟨out ++ sort cmp rest, ?_, ?_, ?_⟩
  · exact ((perm_insertionSort _ rest).append_left out).trans hperm
  · refine pairwise_append.mpr ⟨hsorted, sorted_sort rest, fun a ha b hb => ?_⟩
    exact hrest a ha b ((perm_insertionSort _ rest).mem_iff.mp hb)
  · by_cases hnil : rest = []
    · subst hnil
      simp [sort, take_of_length_le hle]
    · rw [take_append_of_le_length (hfull hnil).ge, ← hfull hnil, take_length]

theorem extend {part rest first : List α} (h : IsFirst cmp k (out ++ rest) first) (hpart : IsFirst cmp k part out) :
    IsFirst cmp k (part ++ rest) first := by
  obtain ⟨l, hl, hsorted, rfl⟩ := h
  obtain ⟨p, hp, hpsorted, rfl⟩ := hpart
  have hlength : l.length = min k p.length + rest.length := by rw [hl.length_eq, length_append, length_take]
  refine of_rest (l.drop k ++ p.drop k) ?_ (hsorted.sublist (take_sublist k l)) (length_take_le k l) ?_ ?_
  · rw [← append_assoc, take_append_drop]
    have hregroup : (p.take k ++ rest ++ p.drop k).Perm (p.take k ++ p.drop k ++ rest) := by
      rw [append_assoc, append_assoc]
      exact perm_append_comm.append_left _
    rw [take_append_drop] at hregroup
    exact (hl.append_right _).trans (hregroup.trans (hp.append_right rest))
  · intro hne
    rw [length_take]
    by_contra hlt
    refine hne ?_
    rw [drop_eq_nil_of_le (by omega), drop_eq_nil_of_le (by omega)]
    rfl
  · intro a ha b hb
    rcases mem_append.mp hb with hb | hb
    · exact isLE_of_mem_drop hsorted ha hb
    -- the part has `k` members up to `b`, and all of them are in `l`
    refine isLE_of_mem_take hsorted ?_ a ha
    have hbefore : ∀ c ∈ p.take k, (cmp c b).isLE = true := fun c hc => isLE_of_mem_drop hpsorted hc hb
    have hpos : 0 < (p.drop k).length := length_pos_of_mem hb
    rw [upTo_perm hl, upTo_append, upTo_eq_length hbefore, length_take]
    rw [length_drop] at hpos
    omega

theorem merge {all' out' : List α} (h : IsFirst cmp k all out) (h' : IsFirst cmp k all' out') :
    IsFirst cmp k (all ++ all') ((sort cmp (out ++ out')).take k) := by
  have hall := (isFirst_sort k (out ++ out')).extend h
  exact ((hall.perm perm_append_comm).extend h').perm perm_append_comm

theorem stop {left : List α} (h : IsFirst cmp k all out) (hfull : out.length = k)
    (hleft : ∀ a ∈ out, ∀ b ∈ left, (cmp a b).isLE = true) : IsFirst cmp k (all ++ left) out := by
  obtain ⟨l, hperm, hl, rfl⟩ := h
  refine of_rest (l.drop k ++ left) ?_ (hl.sublist (take_sublist k l)) hfull.le (fun _ => hfull) ?_
  · rw [← append_assoc, take_append_drop]
    exact hperm.append_right left
  intro a ha b hb
  rcases mem_append.mp hb with hb | hb
  · exact isLE_of_mem_drop hl ha hb
  · exact hleft a ha b hb

theorem not_sameKeys {left first : List α} (h : IsFirst cmp k all out)
    (hfirst : IsFirst cmp k (all ++ left) first) {a b : α} (ha : a ∈ out) (hb : b ∈ left)
    (hba : cmp b a = .lt) : ¬ SameKeys cmp out first := by
  intro hsame
  have hcount : upTo cmp b out = upTo cmp b first := upTo_sameKeys hsame
  obtain ⟨l, hperm, hl, rfl⟩ := h
  obtain ⟨l', hperm', hl', rfl⟩ := hfirst
  have hshort : upTo cmp b (l.take k) < (l.take k).length := by
    refine lt_of_le_of_ne countP_le_length fun heq => ?_
    have hab := countP_eq_length.mp heq a ha
    rw [Std.OrientedCmp.gt_of_lt hba] at hab
    cases hab
  -- nothing that was cut off comes before `a`, so nothing of it is up to `b`
  have hdrop : upTo cmp b (l.drop k) = 0 := by
    refine upTo_eq_zero fun c hc => ?_
    have hac := isLE_of_mem_drop hl ha hc
    exact Std.TransCmp.gt_of_isGE_of_gt (Std.OrientedCmp.isGE_of_isLE hac) (Std.OrientedCmp.gt_of_lt hba)
  have hall : upTo cmp b all = upTo cmp b (l.take k) := by
    rw [← upTo_perm hperm, ← take_append_drop k l, upTo_append, hdrop, take_append_drop, Nat.add_zero]
  have hpos : 0 < upTo cmp b left := countP_pos_iff.mpr ⟨b, hb, isLE_self b⟩
  have hmore : upTo cmp b (l.take k) + 1 ≤ upTo cmp b l' := by
    rw [upTo_perm hperm', upTo_append]
    omega
  have hprefix : upTo cmp b (l'.take (upTo cmp b (l.take k) + 1)) = upTo cmp b (l.take k) + 1 := by
    rw [upTo_eq_length (isLE_of_mem_take hl' hmore), length_take]
    have hle : upTo cmp b l' ≤ l'.length := countP_le_length
    omega
  have hsub : (l'.take (upTo cmp b (l.take k) + 1)).Sublist (l'.take k) := by
    refine (take_sublist_take_left ?_)
    have hk : (l.take k).length ≤ k := length_take_le k l
    omega
  have hbound : upTo cmp b (l'.take (upTo cmp b (l.take k) + 1)) ≤ upTo cmp b (l'.take k) := hsub.countP_le
  omega

theorem forall_iff (h : IsFirst cmp k all out)
    (hp : ∀ a ∈ all, ∀ b ∈ all, p a = true → p b = false → cmp a b = .lt) :
    out.length = k ∧ (∀ a ∈ out, p a = true) ↔ k ≤ all.countP p := by
  rw [countP_eq_length_filter]
  constructor
  · rintro ⟨rfl, hout⟩
    obtain ⟨l, hperm, -, hl⟩ := h
    rw [← (hperm.filter p).length_eq]
    calc
      out.length = (out.filter p).length := by rw [filter_eq_self.mpr hout]
      _ ≤ (l.filter p).length := (hl ▸ (take_sublist _ l).filter p).length_le
  · intro hk
    have hfirst := h.filter hp hk
    refine ⟨?_, fun a ha => (mem_filter.mp (hfirst.mem ha)).2⟩
    rw [hfirst.length_eq, Nat.min_eq_left hk]

theorem forall_isLE_iff (h : IsFirst cmp k all out) :
    out.length = k ∧ (∀ a ∈ out, (cmp a x).isLE = true) ↔ k ≤ upTo cmp x all := by
  refine h.forall_iff fun a _ b _ ha hb => ?_
  have hgt : cmp b x = .gt := by
    cases hcmp : cmp b x <;> simp [hcmp] at hb ⊢
  exact Std.TransCmp.lt_of_isLE_of_lt ha (Std.OrientedCmp.lt_of_gt hgt)

/-- **Stopping.** Where `k` members were found, the first of them and of what is left have the same keys
exactly if each of what is left has `k` members of the others that it does not come before. -/
theorem sameKeys_append_iff {left first : List α} (h : IsFirst cmp k all out)
    (hfirst : IsFirst cmp k (all ++ left) first) (hfull : out.length = k) :
    SameKeys cmp out first ↔ ∀ b ∈ left, k ≤ upTo cmp b all := by
  constructor
  · intro hsame b hb
    refine h.forall_isLE_iff.mp ⟨hfull, fun a ha => ?_⟩
    refine Std.OrientedCmp.isGE_iff_isLE.mp (Ordering.isGE_iff_ne_lt.mpr fun hlt => ?_)
    exact h.not_sameKeys hfirst ha hb hlt hsame
  · intro hleft
    exact (h.stop hfull fun a ha b hb => (h.forall_isLE_iff.mpr (hleft b hb)).2 a ha).sameKeys hfirst

end IsFirst

end

/-- The parts of a list that begin with its first member. -/
theorem forall_fronts_cons {a : α} {P : List α → List α → Prop} :
    (∀ front left, a :: l = front ++ left → front ≠ [] → P front left) ↔
      ∀ front left, l = front ++ left → P (a :: front) left := by
  constructor
  · intro h front left hsplit
    exact h (a :: front) left (by rw [hsplit, cons_append]) (cons_ne_nil _ _)
  · intro h front left hsplit hne
    obtain ⟨first, front, rfl⟩ := exists_cons_of_ne_nil hne
    obtain ⟨rfl, hrest⟩ := cons.inj hsplit
    exact h front left hrest

end TopK
