import PowdrrEngine.LibList
import PowdrrEngine.LibTopK
import Mathlib.Data.Multiset.ZeroCons

/-! Merging groups one after the other. Each group contributes its first members by one order; what has
been merged is sorted with the members of the next group by another comparison, stably, and cut. The result
are the first of all members if the comparison agrees with the order, ties going to the earlier group; and
whatever the comparison, the first of the result is the first least member of all. -/

namespace TopK

open List Std OrientedCmp TransCmp Nat Lists

variable {α : Type*} {cmp cmp' : α → α → Ordering} {k : Nat} {l : List α}

/-! ### Two comparisons -/

theorem orderedInsert_congr {r r' : α → α → Prop} [DecidableRel r] [DecidableRel r'] {a : α}
    (h : ∀ b ∈ l, r a b ↔ r' a b) : l.orderedInsert r a = l.orderedInsert r' a := by
  induction l with
  | nil => rfl
  | cons b l ih =>
    obtain ⟨hb, hl⟩ := forall_mem_cons.mp h
    rw [orderedInsert_cons, orderedInsert_cons, ih hl]
    exact if_congr hb rfl rfl

theorem sort_congr (h : l.Pairwise fun a b => (cmp a b).isLE = true ↔ (cmp' a b).isLE = true) :
    sort cmp l = sort cmp' l := by
  induction l with
  | nil => rfl
  | cons a l ih =>
    obtain ⟨ha, hl⟩ := pairwise_cons.mp h
    have hrest : l.insertionSort (fun a b => (cmp a b).isLE = true) =
        l.insertionSort fun a b => (cmp' a b).isLE = true := ih hl
    rw [sort, sort, insertionSort_cons, insertionSort_cons, hrest]
    exact orderedInsert_congr fun b hb => ha b ((perm_insertionSort _ _).mem_iff.mp hb)

def mergeAll (cmp : α → α → Ordering) (k : Nat) (merged : List α) (groups : List (List α)) : List α :=
  groups.foldl (fun merged group => (sort cmp (merged ++ group)).take k) merged

theorem mergeAll_congr {groups : List (List α)} {merged all : List α}
    (h : ∀ a ∈ all, ∀ b ∈ all, cmp a b = cmp' a b) (hmerged : merged ⊆ all) (hgroups : ∀ group ∈ groups, group ⊆ all) :
    mergeAll cmp k merged groups = mergeAll cmp' k merged groups := by
  induction groups generalizing merged with
  | nil => rfl
  | cons group groups ih =>
    obtain ⟨hgroup, hgroups⟩ := forall_mem_cons.mp hgroups
    have hmem : merged ++ group ⊆ all := append_subset.mpr ⟨hmerged, hgroup⟩
    have hsort : sort cmp (merged ++ group) = sort cmp' (merged ++ group) :=
      insertionSort_eq_sort fun a ha b hb => h a (hmem ha) b (hmem hb)
    rw [mergeAll, mergeAll, foldl_cons, foldl_cons, hsort]
    refine ih (fun a ha => hmem ?_) hgroups
    exact (perm_insertionSort _ _).mem_iff.mp (mem_of_mem_take ha)

section

variable [Std.TransCmp cmp]

/-- The comparison agrees with the order on members of earlier and of later groups. -/
def Agrees (cmp cmp' : α → α → Ordering) (earlier later : List α) : Prop :=
  ∀ a ∈ earlier, ∀ b ∈ later, (cmp a b).isLE = true ↔ (cmp' a b).isLE = true

/-- **Merging with a comparison that agrees with the order.** -/
theorem isFirst_mergeAll {groups firsts : List (List α)} (hfirst : List.Forall₂ (IsFirst cmp k) groups firsts)
    {all merged : List α} (hmerged : IsFirst cmp k all merged)
    (hle : ∀ a ∈ all ++ groups.flatten, ∀ b ∈ all ++ groups.flatten, (cmp a b).isLE = true → (cmp' a b).isLE = true)
    (hagrees : (all :: groups).Pairwise (Agrees cmp cmp')) :
    IsFirst cmp k (all ++ groups.flatten) (mergeAll cmp' k merged firsts) := by
  induction hfirst generalizing all merged with
  | nil =>
    rw [flatten_nil, append_nil]
    exact hmerged
  | @cons group first groups firsts hgroup _ ih =>
    obtain ⟨hall, hgroups⟩ := pairwise_cons.mp hagrees
    obtain ⟨hnext, hrest⟩ := pairwise_cons.mp hgroups
    have hsort : sort cmp' (merged ++ first) = sort cmp (merged ++ first) := by
      refine (sort_congr ?_).symm
      -- within a part nothing comes too early, and between the parts the comparisons agree
      have hpart : ∀ {l : List α}, Sorted cmp l → (∀ a ∈ l, a ∈ all ++ (group :: groups).flatten) →
          l.Pairwise fun a b => (cmp a b).isLE = true ↔ (cmp' a b).isLE = true := by
        intro l hl hmem
        exact hl.imp_of_mem fun ha hb h => iff_of_true h (hle _ (hmem _ ha) _ (hmem _ hb) h)
      refine pairwise_append.mpr ⟨hpart hmerged.sorted fun a ha =>
        mem_append_left _ (hmerged.mem ha), hpart hgroup.sorted fun a ha => ?_, fun a ha b hb => ?_⟩
      · exact mem_append_right _ (mem_append_left _ (hgroup.mem ha))
      · exact hall group mem_cons_self a (hmerged.mem ha) b (hgroup.mem hb)
    have hmerge := hmerged.merge hgroup
    rw [← hsort] at hmerge
    rw [flatten_cons, ← append_assoc] at hle ⊢
    refine ih hmerge hle (pairwise_cons.mpr ⟨fun later hlater a ha => ?_, hrest⟩)
    rcases mem_append.mp ha with ha | ha
    · exact hall later (mem_cons_of_mem _ hlater) a ha
    · exact hnext later hlater a ha

end

/-! ### The first of the result -/

theorem exists_of_append_eq {l' front back : List α} {a : α} (h : l ++ l' = front ++ a :: back) (ha : a ∉ l) :
    ∃ between, front = l ++ between ∧ l' = between ++ a :: back := by
  rcases append_eq_append_iff.mp h with ⟨between, hfront, hback⟩ | ⟨between, hfront, hback⟩
  · exact ⟨between, hfront, hback⟩
  cases between with
  | nil => exact ⟨[], by rw [hfront, append_nil, append_nil], hback.symm⟩
  | cons b between =>
    obtain ⟨rfl, -⟩ := cons.inj hback
    exact absurd (hfront ▸ mem_append_right _ mem_cons_self) ha

def FirstLeast (cmp : α → α → Ordering) (a : α) (l : List α) : Prop :=
  ∃ front back, l = front ++ a :: back ∧ (∀ b ∈ front, cmp a b = .lt) ∧ ∀ b ∈ back, (cmp a b).isLE = true

section

variable [Std.TransCmp cmp]

theorem FirstLeast.isLE {a b : α} (h : FirstLeast cmp a l) (hb : b ∈ l) : (cmp a b).isLE = true := by
  obtain ⟨front, back, rfl, hfront, hback⟩ := h
  rcases mem_append.mp hb with hb | hb
  · rw [hfront b hb]
    rfl
  · rcases mem_cons.mp hb with rfl | hb
    · exact isLE_self b
    · exact hback b hb

theorem firstLeast_of_head_sort {a : α} (h : (sort cmp l).head? = some a) : FirstLeast cmp a l := by
  induction l generalizing a with
  | nil => cases h
  | cons b l ih =>
    have hinsert : sort cmp (b :: l) = (sort cmp l).orderedInsert (fun a b => (cmp a b).isLE = true) b := rfl
    have hperm : (sort cmp l).Perm l := perm_insertionSort _ _
    cases hrest : sort cmp l with
    | nil =>
      rw [hinsert, hrest] at h
      cases h
      rw [hrest] at hperm
      rw [nil_perm.mp hperm]
      exact ⟨[], [], rfl, by simp, by simp⟩
    | cons c rest =>
      have hleast : FirstLeast cmp c l := ih (by rw [hrest]; rfl)
      rw [hinsert, hrest, orderedInsert_cons] at h
      split at h
      · rename_i hle
        cases h
        exact ⟨[], l, rfl, by simp, fun d hd => isLE_trans hle (hleast.isLE hd)⟩
      rename_i hgt
      cases h
      obtain ⟨front, back, rfl, hfront, hback⟩ := hleast
      refine ⟨b :: front, back, rfl, forall_mem_cons.mpr ⟨?_, hfront⟩, hback⟩
      rw [Ordering.isLE_iff_ne_gt, not_not] at hgt
      exact lt_of_gt hgt

/-- What is merged begins with the first least member of all that was merged. -/
structure LeastFirst (cmp : α → α → Ordering) (merged all : List α) : Prop where
  empty : merged = [] → all = []
  sorted : Sorted cmp merged
  head : ∀ a, merged.head? = some a → FirstLeast cmp a all

theorem LeastFirst.merge {merged all : List α} (h : LeastFirst cmp merged all) (hk : 0 < k) (group : List α) :
    LeastFirst cmp ((sort cmp (merged ++ group)).take k) (all ++ group) := by
  have hperm : (sort cmp (merged ++ group)).Perm (merged ++ group) := perm_insertionSort _ _
  refine ⟨fun hempty => ?_, (sorted_sort _).sublist (take_sublist _ _), fun a ha => ?_⟩
  · have hnil : sort cmp (merged ++ group) = [] := by
      rcases take_eq_nil_iff.mp hempty with hzero | hnil
      · omega
      · exact hnil
    rw [hnil] at hperm
    obtain ⟨hmerged, hgroup⟩ := append_eq_nil_iff.mp (nil_perm.mp hperm)
    rw [h.empty hmerged, hgroup]
    rfl
  rw [head?_take, if_neg (by omega)] at ha
  obtain ⟨front, back, hsplit, hfront, hback⟩ := firstLeast_of_head_sort ha
  cases hm : merged with
  | nil =>
    rw [h.empty hm, nil_append]
    rw [hm, nil_append] at hsplit
    exact ⟨front, back, hsplit, hfront, hback⟩
  | cons c rest =>
    have hleast : FirstLeast cmp c all := h.head c (by rw [hm]; rfl)
    rw [hm, cons_append] at hsplit
    cases front with
    | nil =>
      -- the head of what was merged stays
      obtain ⟨rfl, hrest⟩ := cons.inj hsplit
      obtain ⟨front', back', rfl, hfront', hback'⟩ := hleast
      refine ⟨front', back' ++ group, by simp, hfront', fun b hb => ?_⟩
      rcases mem_append.mp hb with hb | hb
      · exact hback' b hb
      · exact hback b (hrest ▸ mem_append_right _ hb)
    | cons d front =>
      -- a member of the group that comes before all that was merged
      obtain ⟨rfl, hrest⟩ := cons.inj hsplit
      have hac : cmp a c = .lt := hfront c mem_cons_self
      have hall : ∀ b ∈ all, cmp a b = .lt := fun b hb =>
        lt_of_lt_of_isLE hac (hleast.isLE hb)
      have hmem : a ∉ rest := by
        intro ha'
        have hsorted := h.sorted
        rw [hm] at hsorted
        have hle := (pairwise_cons.mp hsorted).1 a ha'
        rw [gt_of_lt hac] at hle
        cases hle
      obtain ⟨between, rfl, rfl⟩ := exists_of_append_eq hrest hmem
      refine ⟨all ++ between, back, by simp, fun b hb => ?_, hback⟩
      rcases mem_append.mp hb with hb | hb
      · exact hall b hb
      · exact hfront b (mem_cons_of_mem _ (mem_append_right _ hb))

theorem leastFirst_mergeAll (hk : 0 < k) {groups : List (List α)} {merged all : List α}
    (h : LeastFirst cmp merged all) : LeastFirst cmp (mergeAll cmp k merged groups) (all ++ groups.flatten) := by
  induction groups generalizing merged all with
  | nil =>
    rw [flatten_nil, append_nil]
    exact h
  | cons group groups ih =>
    rw [flatten_cons, ← append_assoc]
    exact ih (h.merge hk group)

end

/-! ### Groups -/

theorem disjoint_parts {groups parts : List (List α)} (h : groups.Pairwise List.Disjoint)
    (hparts : List.Forall₂ (fun group part => part ⊆ group) groups parts) :
    parts.Pairwise List.Disjoint := by
  induction hparts with
  | nil => exact .nil
  | cons hpart hparts ih =>
    obtain ⟨hgroup, hgroups⟩ := pairwise_cons.mp h
    refine pairwise_cons.mpr ⟨fun later hlater a ha ha' => ?_, ih hgroups⟩
    obtain ⟨whole, hwhole, hsub⟩ := exists_mem_of_forall₂ hparts hlater
    exact hgroup whole hwhole (hpart ha) (hsub ha')

section

variable [DecidableEq α] {groups : List (List α)} {group : List α} {a : α}

/-- The group that a member is in. -/
def groupIndex (groups : List (List α)) (a : α) : Nat := groups.findIdx fun group => a ∈ group

theorem groupIndex_cons_of_mem (h : a ∈ group) : groupIndex (group :: groups) a = 0 := by
  rw [groupIndex, findIdx_cons, decide_eq_true h, cond_true]

theorem groupIndex_cons_of_notMem (h : a ∉ group) : groupIndex (group :: groups) a = groupIndex groups a + 1 := by
  rw [groupIndex, findIdx_cons, decide_eq_false h, cond_false, groupIndex]

section

variable (h : groups.Pairwise List.Disjoint) {parts : List (List α)}

include h

theorem groupIndex_pairwise :
    groups.Pairwise fun earlier later => ∀ a ∈ earlier, ∀ b ∈ later, groupIndex groups a < groupIndex groups b := by
  induction groups with
  | nil => exact .nil
  | cons group groups ih =>
    obtain ⟨hgroup, hgroups⟩ := pairwise_cons.mp h
    refine pairwise_cons.mpr ⟨fun later hlater a ha b hb => ?_, (ih hgroups).imp_of_mem ?_⟩
    · rw [groupIndex_cons_of_mem ha, groupIndex_cons_of_notMem fun hb' => hgroup later hlater hb' hb]
      exact succ_pos _
    · intro earlier later hearlier hlater hlt a ha b hb
      rw [groupIndex_cons_of_notMem fun ha' => hgroup earlier hearlier ha' ha,
        groupIndex_cons_of_notMem fun hb' => hgroup later hlater hb' hb]
      exact succ_lt_succ (hlt a ha b hb)

theorem groupIndex_le_of_flatten {b : α} {front back : List α}
    (hsplit : groups.flatten = front ++ a :: back) (hb : b ∈ back) :
    groupIndex groups a ≤ groupIndex groups b := by
  induction groups generalizing front with
  | nil => simp at hsplit
  | cons group groups ih =>
    obtain ⟨hgroup, hgroups⟩ := pairwise_cons.mp h
    by_cases ha : a ∈ group
    · rw [groupIndex_cons_of_mem ha]
      exact zero_le _
    obtain ⟨between, -, hbetween⟩ := exists_of_append_eq hsplit ha
    have hmem : b ∉ group := by
      intro hb'
      have hflat : b ∈ groups.flatten := by
        rw [hbetween]
        exact mem_append_right _ (mem_cons_of_mem _ hb)
      obtain ⟨later, hlater, hb''⟩ := mem_flatten.mp hflat
      exact hgroup later hlater hb' hb''
    rw [groupIndex_cons_of_notMem ha, groupIndex_cons_of_notMem hmem]
    exact succ_le_succ (ih hgroups hbetween)

theorem groupIndex_parts (hparts : List.Forall₂ (fun group part => part ⊆ group) groups parts)
    (ha : a ∈ parts.flatten) : groupIndex parts a = groupIndex groups a := by
  induction hparts with
  | nil => rfl
  | @cons group part groups parts hpart hparts ih =>
    obtain ⟨hgroup, hgroups⟩ := pairwise_cons.mp h
    by_cases hmem : a ∈ part
    · rw [groupIndex_cons_of_mem hmem, groupIndex_cons_of_mem (hpart hmem)]
    have hlater : a ∈ parts.flatten := (mem_append.mp ha).resolve_left hmem
    have hnot : a ∉ group := by
      intro ha'
      obtain ⟨later, hlater, ha''⟩ := mem_flatten.mp hlater
      obtain ⟨whole, hwhole, hsub⟩ := exists_mem_of_forall₂ hparts hlater
      exact hgroup whole hwhole ha' (hsub ha'')
    rw [groupIndex_cons_of_notMem hmem, groupIndex_cons_of_notMem hnot, ih hgroups hlater]

end

end

/-! ### What is shown of the members -/

section

variable {β : Type*} {f : α → β} {all : List α}

theorem map_orderedInsert {r : α → α → Prop} [DecidableRel r] {a : α} (h : ∀ b ∈ l, ¬ r a b → f b = f a) :
    (l.orderedInsert r a).map f = f a :: l.map f := by
  induction l with
  | nil => rfl
  | cons b l ih =>
    obtain ⟨hb, hl⟩ := forall_mem_cons.mp h
    rw [orderedInsert_cons]
    split
    · rfl
    · rename_i hafter
      rw [map_cons, ih hl, map_cons, hb hafter]

section

variable (cmp cmp')

/-- A coarser comparison. -/
def Coarser (all : List α) : Prop :=
  ∀ a ∈ all, ∀ b ∈ all, (cmp a b).isLE = true → (cmp' a b).isLE = true

/-- Members that only the finer comparison tells apart are shown alike. -/
def ShownAlike (f : α → β) (all : List α) : Prop :=
  ∀ a ∈ all, ∀ b ∈ all, cmp a b = .lt → cmp' a b = .eq → f a = f b

/-- However the members are split into groups, merging shows the first of all of them. -/
def ShowsFirst (f : α → β) (all : List α) : Prop :=
  ∀ k groups firsts, groups.flatten.Perm all → List.Forall₂ (IsFirst cmp k) groups firsts →
    ∃ out, IsFirst cmp k all out ∧ (mergeAll cmp' k [] firsts).map f = out.map f

end

theorem Coarser.mono (h : Coarser cmp cmp' all) (hl : l ⊆ all) : Coarser cmp cmp' l := fun a ha b hb =>
  h a (hl ha) b (hl hb)

theorem ShownAlike.mono (h : ShownAlike cmp cmp' f all) (hl : l ⊆ all) : ShownAlike cmp cmp' f l := fun a ha b hb =>
  h a (hl ha) b (hl hb)

theorem mergeAll_pair {first second : List α} (hk : first.length = k) (h : Sorted cmp' (first ++ second)) :
    mergeAll cmp' k [] [first, second] = first := by
  have hfirst : sort cmp' first = first := (pairwise_append.mp h).1.insertionSort_eq
  have hboth : sort cmp' (first ++ second) = first ++ second := h.insertionSort_eq
  rw [mergeAll, foldl_cons, foldl_cons, foldl_nil, nil_append, hfirst, take_of_length_le hk.le, hboth, ← hk, take_left]

theorem IsFirst.coarser {out : List α} (h : IsFirst cmp k all out) (hle : Coarser cmp cmp' all) : IsFirst cmp' k all out := by
  obtain ⟨l, hperm, hl, rfl⟩ := h
  exact ⟨l, hperm, hl.imp_of_mem fun ha hb => hle.mono hperm.subset _ ha _ hb, rfl⟩

variable [Std.TransCmp cmp] [Std.TransCmp cmp']

theorem map_sort_eq (hl : Sorted cmp' l) (hle : Coarser cmp cmp' l) (halike : ShownAlike cmp cmp' f l) :
    (sort cmp l).map f = l.map f := by
  induction l with
  | nil => rfl
  | cons a l ih =>
    obtain ⟨ha, hrest⟩ := pairwise_cons.mp hl
    have hsub := subset_cons_self a l
    rw [sort, insertionSort_cons, map_orderedInsert fun b hb hafter => ?_]
    · exact congrArg _ (ih hrest (hle.mono hsub) (halike.mono hsub))
    · have hb := (perm_insertionSort _ l).mem_iff.mp hb
      have hlt : cmp b a = .lt := lt_of_gt (by simpa using hafter)
      have hba := hle b (hsub hb) a mem_cons_self (by rw [hlt]; rfl)
      exact halike b (hsub hb) a mem_cons_self hlt (isLE_antisymm hba (ha b hb))

theorem ShownAlike.showsFirst (h : ShownAlike cmp cmp' f all) (hle : Coarser cmp cmp' all) :
    ShowsFirst cmp cmp' f all := by
  intro k groups firsts hperm hfirsts
  have hcoarse : List.Forall₂ (IsFirst cmp' k) groups firsts := by
    refine (forall₂_mem hfirsts).imp fun group first ⟨hgroup, hfirst⟩ => hfirst.coarser (hle.mono fun a ha => ?_)
    exact hperm.mem_iff.mp (mem_flatten_of_mem hgroup ha)
  have hmerged := isFirst_mergeAll hcoarse isFirst_nil (fun _ _ _ _ h => h)
    (pairwise_of_forall fun _ _ _ _ _ _ => Iff.rfl)
  obtain ⟨l, hl, hsorted, hout⟩ := hmerged.perm hperm
  refine ⟨(sort cmp l).take k, ⟨sort cmp l, (perm_insertionSort _ l).trans hl, sorted_sort l, rfl⟩, ?_⟩
  rw [hout, map_take, map_take, map_sort_eq hsorted (hle.mono hl.subset) (h.mono hl.subset)]

theorem exists_perm_cons {a : α} (h : a ∈ l) : ∃ rest, l.Perm (a :: rest) := by
  obtain ⟨front, back, rfl⟩ := append_of_mem h
  exact ⟨front ++ back, perm_middle⟩

theorem ShowsFirst.shownAlike (h : ShowsFirst cmp cmp' f all) (hle : Coarser cmp cmp' all) :
    ShownAlike cmp cmp' f all := by
  intro a ha b hb hlt heq
  -- as many are asked for as are not after `a`; the first group has `b` in the place of `a`
  have hgt : cmp b a = .gt := gt_of_lt hlt
  obtain ⟨low, hlow⟩ := exists_perm_cons (l := all.filter fun c => (cmp c a).isLE)
    (mem_filter.mpr ⟨ha, isLE_self a⟩)
  obtain ⟨high, hhigh⟩ := exists_perm_cons (l := all.filter fun c => !(cmp c a).isLE)
    (mem_filter.mpr ⟨hb, by simp [hgt]⟩)
  have hall : (b :: low ++ a :: high).Perm all := by
    refine Perm.trans ?_ (filter_append_perm (fun c => (cmp c a).isLE) all)
    refine Perm.trans ?_ (hlow.append hhigh).symm
    exact (perm_middle.trans (.swap b a _)).trans perm_middle.symm
  have hbefore : ∀ c ∈ b :: low, (cmp' c a).isLE = true := by
    intro c hc
    rcases mem_cons.mp hc with rfl | hc
    · rw [eq_symm heq]
      rfl
    · obtain ⟨hmem, hcmp⟩ := mem_filter.mp (hlow.mem_iff.mpr (mem_cons_of_mem a hc))
      exact hle c hmem a ha hcmp
  have hafter : ∀ c ∈ a :: high, (cmp' a c).isLE = true := by
    intro c hc
    rcases mem_cons.mp hc with rfl | hc
    · exact isLE_self c
    · obtain ⟨hmem, hcmp⟩ := mem_filter.mp (hhigh.mem_iff.mpr (mem_cons_of_mem b hc))
      refine hle a ha c hmem ?_
      rw [lt_of_gt (show cmp c a = .gt by simpa using hcmp)]
      rfl
  have hlength : (sort cmp (b :: low)).length = (b :: low).length := length_insertionSort _ _
  have hfirsts : List.Forall₂ (IsFirst cmp (b :: low).length) [b :: low, a :: high]
      [sort cmp (b :: low), (sort cmp (a :: high)).take (b :: low).length] := by
    refine .cons ?_ (.cons (isFirst_sort _ _) .nil)
    have hfirst : IsFirst cmp _ _ _ := isFirst_sort (b :: low).length (b :: low)
    rwa [take_of_length_le hlength.le] at hfirst
  obtain ⟨out, hout, hshown⟩ := h _ _ _ (by simpa using hall) hfirsts
  have hsorted : Sorted cmp' (sort cmp (b :: low) ++ (sort cmp (a :: high)).take (b :: low).length) := by
    have hfirst := (forall₂_cons.mp hfirsts).1
    have hsecond := (forall₂_cons.mp (forall₂_cons.mp hfirsts).2).1
    have hcoarser := hle.mono hall.subset
    refine pairwise_append.mpr ⟨(hfirst.coarser (hcoarser.mono (subset_append_left _ _))).sorted,
      (hsecond.coarser (hcoarser.mono (subset_append_right _ _))).sorted, fun c hc d hd => ?_⟩
    exact isLE_trans (hbefore c (hfirst.mem hc)) (hafter d (hsecond.mem hd))
  rw [mergeAll_pair hlength hsorted] at hshown
  have hcount : (b :: low).length = (all.filter fun c => (cmp c a).isLE).length := hlow.length_eq.symm
  obtain ⟨l, hl, -, rfl⟩ := hout.filter (p := fun c => (cmp c a).isLE) (fun c _ d _ hc hd =>
    lt_of_isLE_of_lt hc (lt_of_gt (by simpa using hd))) hcount.le
  rw [take_of_length_le (by rw [hl.length_eq, hcount])] at hshown
  have hperm := ((perm_insertionSort _ _).map f).symm.trans (hshown ▸ (hl.trans hlow).map f)
  exact (Multiset.cons_inj_left (low.map f : Multiset β)).mp (Multiset.coe_eq_coe.mpr hperm).symm

theorem showsFirst_iff (hle : Coarser cmp cmp' all) : ShowsFirst cmp cmp' f all ↔ ShownAlike cmp cmp' f all :=
  ⟨fun h => h.shownAlike hle, fun h => h.showsFirst hle⟩

end

end TopK
