import Mathlib.Data.List.Sort
import Mathlib.Data.List.Induction
import Mathlib.Data.List.Dedup
import Mathlib.Data.List.Perm.Basic

/-! The positions of a list; folds that only append; lists that agree member by member. -/

namespace Lists

open List Option

variable {α : Type*} {l : List α} {β : Type*} {k : List β} {f : α → Option β}
  {p : α → Bool} {q : β → Bool} {a : α} {R : α → β → Prop}

theorem filterMap_range_filter (l : List α) (p : α → Bool) :
    ((List.range l.length).filter fun i => (l[i]?).any p).filterMap (fun i => l[i]?) = l.filter p := by
  induction l using List.reverseRecOn with
  | nil => rfl
  | append_singleton l a ih =>
    have hold : ∀ i ∈ List.range l.length, (l ++ [a])[i]? = l[i]? := by
      intro i hi
      exact List.getElem?_append_left (mem_range.mp hi)
    rw [length_append, length_singleton, range_succ, filter_append, filterMap_append, filter_append]
    congr 1
    · rw [← ih, filter_congr fun i hi => by rw [hold i hi]]
      refine filterMap_congr fun i hi => ?_
      exact hold i (mem_of_mem_filter hi)
    · by_cases hp : p a <;> simp [hp]

theorem filterMap_range (l : List α) : (List.range l.length).filterMap (fun i => l[i]?) = l := by
  have h := filterMap_range_filter l fun _ => true
  rw [filter_true, filter_eq_self.mpr] at h
  · exact h
  · simp

theorem flatMap_zipIdx (l : List α) (p : α → Bool) : (l.zipIdx.flatMap fun x => if p x.1 then [x.2] else []) =
      (List.range l.length).filter fun i => (l[i]?).any p := by
  induction l using List.reverseRecOn with
  | nil => rfl
  | append_singleton l a ih =>
    rw [zipIdx_append, flatMap_append, ih, length_append, length_singleton, range_succ, filter_append]
    congr 1
    · refine filter_congr fun i hi => ?_
      rw [List.getElem?_append_left (mem_range.mp hi)]
    · by_cases hp : p a <;> simp [hp]

theorem sort_dedup_eq_filter_range {l : List Nat} {n : Nat} {p : Nat → Bool} (h : ∀ i, i ∈ l ↔ i < n ∧ p i = true) :
    l.dedup.insertionSort (· ≤ ·) = (List.range n).filter p := by
  have hnodup : ((List.range n).filter p).Nodup := List.nodup_range.filter _
  have hperm : l.dedup.Perm ((List.range n).filter p) := by
    refine (List.perm_ext_iff_of_nodup (List.nodup_dedup l) hnodup).mpr fun i => ?_
    rw [List.mem_dedup, h, List.mem_filter, List.mem_range]
  have hsorted : ((List.range n).filter p).Pairwise (· ≤ ·) := (List.pairwise_lt_range.imp Nat.le_of_lt).filter _
  exact ((List.perm_insertionSort _ _).trans hperm).eq_of_pairwise (fun _ _ _ _ => Nat.le_antisymm)
    (List.pairwise_insertionSort _ _) hsorted

theorem foldl_append {σ γ : Type*} {step : σ → β → σ} (inv : σ → Prop) (out : σ → List γ) {add : β → List γ}
    (h : ∀ s x, inv s → inv (step s x) ∧ out (step s x) = out s ++ add x) {s : σ} (hs : inv s) (l : List β) :
    inv (l.foldl step s) ∧ out (l.foldl step s) = out s ++ l.flatMap add := by
  induction l generalizing s with
  | nil => exact ⟨hs, by simp⟩
  | cons x l ih =>
    obtain ⟨hinv, hout⟩ := h s x hs
    obtain ⟨hinv', hout'⟩ := ih hinv
    exact ⟨hinv', by rw [foldl_cons, hout', hout, flatMap_cons, append_assoc]⟩

theorem filterMap_take (h : ∀ a ∈ l, (f a).isSome) (n : Nat) : (l.take n).filterMap f = (l.filterMap f).take n := by
  induction l generalizing n with
  | nil => simp
  | cons a l ih =>
    obtain ⟨b, hb⟩ := isSome_iff_exists.mp (h a mem_cons_self)
    cases n with
    | zero => rfl
    | succ n =>
      rw [take_succ_cons, filterMap_cons_some hb, filterMap_cons_some hb,
        take_succ_cons, ih (fun a ha => h a (mem_cons_of_mem _ ha))]

theorem forall₂_of_mapM (h : l.mapM f = some k) : List.Forall₂ (fun a b => f a = some b) l k := by
  induction l generalizing k with
  | nil =>
    cases h
    exact List.Forall₂.nil
  | cons a l ih =>
    simp only [mapM_cons, bind_eq_bind, bind_eq_some_iff] at h
    obtain ⟨b, hb, bs, hbs, hk⟩ := h
    cases hk
    exact List.Forall₂.cons hb (ih hbs)

theorem map_eq_map_of_forall₂ {γ : Type*} {f : α → γ} {g : β → γ}
    (h : List.Forall₂ (fun a b => f a = g b) l k) : l.map f = k.map g := by
  induction h with
  | nil => rfl
  | cons hab _ ih => rw [map_cons, map_cons, hab, ih]

section

variable (h : List.Forall₂ R l k)

include h

theorem forall₂_mem : List.Forall₂ (fun a b => a ∈ l ∧ R a b) l k := by
  induction h with
  | nil => exact List.Forall₂.nil
  | cons hab _ ih =>
    refine List.Forall₂.cons ⟨mem_cons_self, hab⟩ (ih.imp fun a b h => ?_)
    exact ⟨mem_cons_of_mem _ h.1, h.2⟩

theorem exists_mem_of_forall₂ {b : β} (hb : b ∈ k) : ∃ a ∈ l, R a b := by
  induction h with
  | nil => cases hb
  | cons hab _ ih =>
    rcases mem_cons.mp hb with rfl | hb
    · exact ⟨_, mem_cons_self, hab⟩
    · obtain ⟨a, ha, hr⟩ := ih hb
      exact ⟨a, mem_cons_of_mem _ ha, hr⟩

theorem exists_right_of_forall₂ (ha : a ∈ l) : ∃ b ∈ k, R a b :=
  exists_mem_of_forall₂ (R := fun b a => R a b) (List.Forall₂.flip h) ha

theorem forall₂_trans {γ : Type*} {Q : β → γ → Prop} {m : List γ} (h' : List.Forall₂ Q k m) :
    List.Forall₂ (fun a c => ∃ b, R a b ∧ Q b c) l m := by
  induction h generalizing m with
  | nil =>
    cases h'
    exact .nil
  | cons hab _ ih =>
    obtain _ | ⟨hbc, hrest⟩ := h'
    exact .cons ⟨_, hab, hbc⟩ (ih hrest)

end

theorem forall₂_iff_of_forall₂ {p : α → Prop}
    (h : List.Forall₂ (fun a b => R a b ↔ p a) l k) : List.Forall₂ R l k ↔ ∀ a ∈ l, p a := by
  induction h with
  | nil => simp
  | cons hab _ ih => rw [forall₂_cons, forall_mem_cons, hab, ih]

theorem mapM_congr_left {g : α → Option β} (h : ∀ a ∈ l, f a = g a) : l.mapM f = l.mapM g := by
  induction l with
  | nil => rfl
  | cons a l ih => rw [mapM_cons, mapM_cons, h a mem_cons_self, ih fun b hb => h b (mem_cons_of_mem _ hb)]

theorem mapM_eq_map {g : α → β} (h : ∀ a ∈ l, f a = some (g a)) : l.mapM f = some (l.map g) :=
  (mapM_congr_left h).trans mapM_pure

theorem isSome_mapM : (l.mapM f).isSome ↔ ∀ a ∈ l, (f a).isSome := by
  induction l with
  | nil => simp
  | cons a l ih =>
    rw [forall_mem_cons, ← ih, mapM_cons]
    cases f a <;> cases l.mapM f <;> simp

theorem mapM_eq_none (ha : a ∈ l) (h : f a = none) : l.mapM f = none := by
  rw [← not_isSome_iff_eq_none, isSome_mapM]
  intro hall
  have hsome := hall a ha
  rw [h] at hsome
  cases hsome

theorem find?_eq_some_of_nodup {κ : Type*} [DecidableEq κ] {key : α → κ} {k : κ} (h : (l.map key).Nodup) :
    l.find? (fun a => key a = k) = some a ↔ a ∈ l ∧ key a = k := by
  constructor
  · exact fun hfind => ⟨mem_of_find?_eq_some hfind, by simpa using find?_some hfind⟩
  · rintro ⟨hmem, rfl⟩
    obtain ⟨b, hb⟩ : ∃ b, l.find? (fun b => key b = key a) = some b :=
      isSome_iff_exists.mp (find?_isSome.mpr ⟨a, hmem, by simp⟩)
    rw [hb, inj_on_of_nodup_map h (mem_of_find?_eq_some hb) hmem (by simpa using find?_some hb)]

section

variable (h : List.Forall₂ R l k) (hpq : ∀ a ∈ l, ∀ b, R a b → q b = p a)

include h hpq

theorem any_congr_of_forall₂ : k.any q = l.any p := by
  induction h with
  | nil => rfl
  | @cons a b l k hab _ ih =>
    rw [any_cons, any_cons, hpq a mem_cons_self b hab, ih fun a ha => hpq a (mem_cons_of_mem _ ha)]

theorem all_congr_of_forall₂ : k.all q = l.all p := by
  rw [all_eq_not_any_not, all_eq_not_any_not,
    any_congr_of_forall₂ h fun a ha b hab => congrArg not (hpq a ha b hab)]

end

theorem eq_or_eq_of_perm_pair {b : α} (h : l.Perm [a, b]) : l = [a, b] ∨ l = [b, a] := by
  match l, h.length_eq with
  | [x, y], _ =>
    have ha : a ∈ [x, y] := h.mem_iff.mpr mem_cons_self
    rcases mem_pair.mp ha with rfl | rfl
    · rw [perm_singleton.mp (List.Perm.cons_inv h)]
      exact Or.inl rfl
    · have hx : [x] = [b] := perm_singleton.mp (List.Perm.cons_inv ((List.Perm.swap x a []).trans h))
      cases hx
      exact Or.inr rfl

end Lists
