import PowdrrEngine.LibTopK

/-! Reading a collection page by page. A request answers with a page and, where there may be more, with a
token; the client asks again with the token until there is none. Here a page holds the first rows of what
is left, and the token stands for its last row: what is left then are the rows beyond that row. Such
paging is complete exactly if every row behind the end of a page is beyond the row that ends it. -/

namespace Paging

open List

/-! ### Clients -/

section

variable {κ ε β : Type*} {start : Option κ} {pages : List β} {page : β}

/-- The pages that a client gets, the last of them without a token. -/
inductive Pages (fetch : Option κ → Except ε β) (next : β → Option κ) : Option κ → List β → Prop
  | last {start : Option κ} {page : β} (hfetch : fetch start = .ok page) (hnext : next page = none) :
      Pages fetch next start [page]
  | more {start : Option κ} {page : β} {key : κ} {pages : List β} (hfetch : fetch start = .ok page)
      (hnext : next page = some key) (hpages : Pages fetch next (some key) pages) :
      Pages fetch next start (page :: pages)

variable {fetch : Option κ → Except ε β} {next : β → Option κ}

theorem Pages.forall_mem {P : β → Prop} (hpage : ∀ start page, fetch start = .ok page → P page)
    (h : Pages fetch next start pages) : ∀ page ∈ pages, P page := by
  induction h with
  | last hfetch _ => simpa using hpage _ _ hfetch
  | more hfetch _ _ ih => exact forall_mem_cons.mpr ⟨hpage _ _ hfetch, ih⟩

end

/-! ### Continuing behind the last row -/

section

open TopK

variable {α : Type*} {cmp : α → α → Ordering} {beyond : α → α → Bool} {l : List α} {n : Nat}

section

variable (cmp beyond)

/-- What a continuation selects: rows that come later, judged by the order alone. -/
structure Strict : Prop where
  lt : ∀ {a b}, beyond a b = true → cmp a b = .lt
  trans : ∀ {a b c}, beyond a b = true → beyond b c = true → beyond a c = true
  congr_left : ∀ {a a' b}, cmp a a' = .eq → beyond a b = beyond a' b
  congr_right : ∀ {a b b'}, cmp b b' = .eq → beyond a b = beyond a b'

/-- Every row behind the end of a page of `n` rows is beyond the row that ends it. -/
def Apart (n : Nat) (l : List α) : Prop :=
  ∀ k last, l[(k + 1) * n - 1]? = some last → ∀ b ∈ l.drop ((k + 1) * n), beyond last b = true

/-- What is left behind a row, or at the start. -/
def rest (all : List α) : Option α → List α
  | none => all
  | some last => all.filter (beyond last)

end

theorem mem_of_mem_rest {all : List α} {last : Option α} {a : α} (h : a ∈ rest beyond all last) : a ∈ all := by
  cases last with
  | none => exact h
  | some last => exact mem_of_mem_filter h

theorem apart_iff (hn : 0 < n) : Apart beyond n l ↔
    (∀ last, l[n - 1]? = some last → ∀ b ∈ l.drop n, beyond last b = true) ∧ Apart beyond n (l.drop n) := by
  -- the pages of what is left are the later pages of the whole
  have hlater : ∀ k, (l.drop n)[(k + 1) * n - 1]? = l[(k + 1 + 1) * n - 1]? ∧
      (l.drop n).drop ((k + 1) * n) = l.drop ((k + 1 + 1) * n) := by
    intro k
    have hpos : 1 ≤ (k + 1) * n := Nat.mul_pos (Nat.succ_pos k) hn
    have hmul : (k + 1 + 1) * n = n + (k + 1) * n := by rw [Nat.succ_mul (k + 1) n, Nat.add_comm]
    rw [hmul, List.getElem?_drop, drop_drop, Nat.add_sub_assoc hpos]
    exact ⟨rfl, rfl⟩
  unfold Apart
  simp only [hlater]
  constructor
  · intro h
    exact ⟨by simpa using h 0, fun k => h (k + 1)⟩
  · rintro ⟨hfirst, hrest⟩ (_ | k)
    · simpa using hfirst
    · exact hrest k

theorem apart_of_length_le (h : l.length ≤ n) : Apart beyond n l := by
  intro k last _ b hb
  have hle : l.length ≤ (k + 1) * n := h.trans (Nat.le_mul_of_pos_left n (Nat.succ_pos k))
  rw [drop_eq_nil_of_le hle] at hb
  cases hb

theorem apart_of_pairwise (hn : 0 < n) (h : l.Pairwise fun a b => beyond a b = true) : Apart beyond n l := by
  intro k last hlast b hb
  obtain ⟨hi, rfl⟩ := List.getElem?_eq_some_iff.mp hlast
  obtain ⟨j, hj, rfl⟩ := mem_drop_iff_getElem.mp hb
  have hpos : 1 ≤ (k + 1) * n := Nat.mul_pos (Nat.succ_pos k) hn
  exact pairwise_iff_getElem.mp h _ _ hi (by omega) (by omega)

theorem Apart.of_sameKeys (hstrict : Strict cmp beyond) {l' : List α} (h : Apart beyond n l)
    (hsame : SameKeys cmp l l') : Apart beyond n l' := by
  intro k last hlast b hb
  obtain ⟨hi, rfl⟩ := List.getElem?_eq_some_iff.mp hlast
  obtain ⟨j, hj, rfl⟩ := mem_drop_iff_getElem.mp hb
  obtain ⟨hlength, hget⟩ := forall₂_iff_get.mp hsame
  simp only [get_eq_getElem] at hget
  have hi' : (k + 1) * n - 1 < l.length := by omega
  have hj' : (k + 1) * n + j < l'.length := by omega
  have hjl : (k + 1) * n + j < l.length := by omega
  rw [← hstrict.congr_left (hget _ hi' hi), ← hstrict.congr_right (hget _ hjl hj')]
  exact h k _ (List.getElem?_eq_getElem hi') _ (mem_drop_iff_getElem.mpr ⟨j, by omega, rfl⟩)

/-! ### Completeness -/

section

variable {κ ε β : Type*} {fetch : Option κ → Except ε β} {next : β → Option κ} {rows : β → List α}
  {all : List α} {Stands : Option κ → Option α → Prop} {token : Option κ} {last : Option α} {pages : List β} {x : α}

/-- A service that answers with the first `n` rows of what is left, and with a token that stands for the
last of them unless nothing is left. -/
structure Pager (fetch : Option κ → Except ε β) (next : β → Option κ) (rows : β → List α)
    (cmp : α → α → Ordering) (beyond : α → α → Bool) (n : Nat) (all : List α)
    (Stands : Option κ → Option α → Prop) : Prop where
  start : Stands none none
  serves : ∀ token last, Stands token last → ∃ page, fetch token = .ok page ∧
    IsFirst cmp n (rest beyond all last) (rows page) ∧
    (next page = none → (rest beyond all last).length ≤ n) ∧
    ∀ key, next page = some key → n ≤ (rest beyond all last).length ∧
      ∀ x, (rows page).getLast? = some x → Stands (some key) (some x)

theorem rest_of_mem (hstrict : Strict cmp beyond) (hx : x ∈ rest beyond all last) :
    rest beyond all (some x) = (rest beyond all last).filter (beyond x) := by
  cases last with
  | none => rfl
  | some y =>
    have hyx : beyond y x = true := (mem_filter.mp hx).2
    simp only [rest, filter_filter]
    refine filter_congr fun b _ => ?_
    cases hxb : beyond x b with
    | false => rfl
    | true => rw [hstrict.trans hyx hxb, Bool.and_self]

theorem getLast?_take (hn : 0 < n) (hlength : n ≤ l.length) :
    ∃ x, (l.take n).getLast? = some x ∧ l[n - 1]? = some x := by
  have hi : n - 1 < l.length := by omega
  refine ⟨l[n - 1], ?_, List.getElem?_eq_getElem hi⟩
  rw [List.getLast?_eq_getElem?, length_take, Nat.min_eq_left hlength, List.getElem?_take,
    if_pos (by omega), List.getElem?_eq_getElem hi]

theorem getLast?_of_isFirst {out : List α} (h : IsFirst cmp n l out) (hn : 0 < n) (hlength : n ≤ l.length) :
    ∃ x, out.getLast? = some x := by
  obtain ⟨l', hperm, -, rfl⟩ := h
  obtain ⟨x, hx, -⟩ := getLast?_take hn (hperm.length_eq ▸ hlength : n ≤ l'.length)
  exact ⟨x, hx⟩

theorem Pager.exists_last (hpager : Pager fetch next rows cmp beyond n all Stands) (hn : 0 < n) {page : β} {key : κ}
    (hstands : Stands token last) (hfetch : fetch token = .ok page) (hnext : next page = some key) :
    IsFirst cmp n (rest beyond all last) (rows page) ∧
      n ≤ (rest beyond all last).length ∧ ∃ x, (rows page).getLast? = some x ∧ Stands (some key) (some x) := by
  obtain ⟨page', hfetch', hfirst, -, hmore⟩ := hpager.serves _ last hstands
  cases hfetch.symm.trans hfetch'
  obtain ⟨hfull, hkey⟩ := hmore key hnext
  obtain ⟨x, hx⟩ := getLast?_of_isFirst hfirst hn hfull
  exact ⟨hfirst, hfull, x, hx, hkey x hx⟩

variable [Std.TransCmp cmp]

theorem not_beyond_of_isLE (hstrict : Strict cmp beyond) {a : α} (h : (cmp a x).isLE = true) : beyond x a = false := by
  cases hbeyond : beyond x a with
  | false => rfl
  | true =>
    rw [Std.OrientedCmp.gt_of_lt (hstrict.lt hbeyond)] at h
    cases h

section

variable (hstrict : Strict cmp beyond) (hl : Sorted cmp l) (hx : (l.take n).getLast? = some x)
  (hbeyond : ∀ b ∈ l.drop n, beyond x b = true)

include hstrict hl hx hbeyond

theorem filter_beyond_eq_drop : l.filter (beyond x) = l.drop n := by
  have htake : (l.take n).filter (beyond x) = [] := by
    refine filter_eq_nil_iff.mpr fun a ha => ?_
    have hle := isLE_getLast (hl.sublist (take_sublist n l)) ha hx
    rw [not_beyond_of_isLE hstrict hle]
    decide
  conv_lhs => rw [← take_append_drop n l]
  rw [filter_append, htake, nil_append]
  exact filter_eq_self.mpr hbeyond

theorem drop_perm_rest (hperm : l.Perm (rest beyond all last)) : (l.drop n).Perm (rest beyond all (some x)) := by
  have hmem := hperm.mem_iff.mp (mem_of_mem_take (mem_of_getLast? hx))
  rw [rest_of_mem hstrict hmem, ← filter_beyond_eq_drop hstrict hl hx hbeyond]
  exact hperm.filter _

end

section

variable (hpager : Pager fetch next rows cmp beyond n all Stands) (hstrict : Strict cmp beyond) (hn : 0 < n)

include hpager hstrict hn

/-- **Paging that is apart is complete.** By induction on what is left: a page takes its first rows, and
what is left behind the page is the rest of them. -/
theorem Pager.complete (hstands : Stands token last) (hperm : l.Perm (rest beyond all last)) (hl : Sorted cmp l)
    (hapart : Apart beyond n l) :
    ∃ pages, Pages fetch next token pages ∧ (pages.flatMap rows).Perm (rest beyond all last) := by
  induction hlength : (rest beyond all last).length using Nat.strong_induction_on generalizing token last l with
  | _ length ih =>
    obtain ⟨page, hfetch, ⟨l', hperm', hl', hrows⟩, hdone, hmore⟩ := hpager.serves token last hstands
    have hsame : SameKeys cmp l l' := sameKeys_of_perm hl hl' (hperm.trans hperm'.symm)
    have hapart' := hapart.of_sameKeys hstrict hsame
    cases hnext : next page with
    | none =>
      refine ⟨[page], .last hfetch hnext, ?_⟩
      have hle : l'.length ≤ n := by
        rw [hperm'.length_eq]
        exact hdone hnext
      rw [flatMap_singleton, hrows, take_of_length_le hle]
      exact hperm'
    | some key =>
      obtain ⟨hfull, hkey⟩ := hmore key hnext
      rw [← hperm'.length_eq] at hfull
      obtain ⟨x, hx, hx'⟩ := getLast?_take hn hfull
      obtain ⟨hbeyond, hrest⟩ := (apart_iff hn).mp hapart'
      have hleft := drop_perm_rest hstrict hl' hx (hbeyond x hx') hperm'
      have hshort : (rest beyond all (some x)).length < length := by
        rw [← hleft.length_eq, length_drop, hperm'.length_eq, hlength]
        rw [hperm'.length_eq, hlength] at hfull
        omega
      obtain ⟨pages, hpages, hout⟩ := ih _ hshort (hkey x (by rw [hrows]; exact hx)) hleft
        (hl'.sublist (drop_sublist n l')) hrest rfl
      refine ⟨page :: pages, .more hfetch hnext hpages, ?_⟩
      rw [flatMap_cons, hrows]
      have hcat := (hout.trans hleft.symm).append_left (l'.take n)
      rw [take_append_drop] at hcat
      exact hcat.trans hperm'

theorem Pager.sorted (h : Pages fetch next token pages) : ∀ last, Stands token last →
      Sorted cmp (pages.flatMap rows) ∧ ∀ a ∈ pages.flatMap rows, a ∈ rest beyond all last := by
  induction h with
  | last hfetch hnext =>
    intro last hstands
    obtain ⟨page, hfetch', hfirst, -, -⟩ := hpager.serves _ last hstands
    cases hfetch.symm.trans hfetch'
    rw [flatMap_singleton]
    exact ⟨hfirst.sorted, fun a ha => hfirst.mem ha⟩
  | more hfetch hnext _ ih =>
    intro last hstands
    obtain ⟨hfirst, -, x, hx, hkey⟩ := hpager.exists_last hn hstands hfetch hnext
    obtain ⟨hsorted, hmem⟩ := ih (some x) hkey
    rw [rest_of_mem hstrict (hfirst.mem (mem_of_getLast? hx))] at hmem
    refine ⟨pairwise_append.mpr ⟨hfirst.sorted, hsorted, fun a ha b hb => ?_⟩, fun a ha => ?_⟩
    · have hax := isLE_getLast hfirst.sorted ha hx
      have hxb := hstrict.lt (mem_filter.mp (hmem b hb)).2
      rw [Std.TransCmp.lt_of_isLE_of_lt hax hxb]
      rfl
    · rcases mem_append.mp ha with ha | ha
      · exact hfirst.mem ha
      · exact (mem_filter.mp (hmem a ha)).1

/-- **Complete paging is apart.** What a client got behind a page is beyond the row that ends the page, so
if nothing is missing all that was left is. -/
theorem Pager.apart (h : Pages fetch next token pages) :
    ∀ last, Stands token last → (pages.flatMap rows).Perm (rest beyond all last) →
      ∀ l : List α, l.Perm (rest beyond all last) → Sorted cmp l → Apart beyond n l := by
  induction h with
  | last hfetch hnext =>
    intro last hstands _ l hperm _
    obtain ⟨page, hfetch', -, hdone, -⟩ := hpager.serves _ last hstands
    cases hfetch.symm.trans hfetch'
    refine apart_of_length_le ?_
    rw [hperm.length_eq]
    exact hdone hnext
  | more hfetch hnext hpages ih =>
    rename_i page key pages
    intro last hstands hout l hperm hl
    obtain ⟨⟨l', hperm', hl', hrows⟩, hfull, x, hx, hkey⟩ := hpager.exists_last hn hstands hfetch hnext
    have hmem := (hpager.sorted hstrict hn hpages (some x) hkey).2
    have hsame : SameKeys cmp l' l := sameKeys_of_perm hl' hl (hperm'.trans hperm.symm)
    -- behind the page the client got the rest of this arrangement
    have hleft : (pages.flatMap rows).Perm (l'.drop n) := by
      have hcat : (l'.take n ++ pages.flatMap rows).Perm (l'.take n ++ l'.drop n) := by
        rw [take_append_drop, ← hrows, ← flatMap_cons]
        exact hout.trans hperm'.symm
      exact (perm_append_left_iff _).mp hcat
    have hbeyond : ∀ b ∈ l'.drop n, beyond x b = true := fun b hb =>
      (mem_filter.mp (hmem b (hleft.mem_iff.mpr hb))).2
    rw [hrows] at hx
    have hrest := drop_perm_rest hstrict hl' hx hbeyond hperm'
    have hdrop := ih (some x) hkey (hleft.trans hrest) (l'.drop n) hrest (hl'.sublist (drop_sublist n l'))
    refine Apart.of_sameKeys hstrict ((apart_iff hn).mpr ⟨fun y hy => ?_, hdrop⟩) hsame
    obtain ⟨x', hx', hy'⟩ := getLast?_take hn (hperm'.length_eq ▸ hfull : n ≤ l'.length)
    cases hx.symm.trans hx'
    cases hy.symm.trans hy'
    exact hbeyond

theorem Pager.complete_iff : (∃ pages, Pages fetch next none pages ∧ (pages.flatMap rows).Perm all ∧
      Sorted cmp (pages.flatMap rows)) ↔ Apart beyond n (TopK.sort cmp all) := by
  have hperm : (TopK.sort cmp all).Perm all := perm_insertionSort _ _
  constructor
  · rintro ⟨pages, hpages, hout, -⟩
    exact hpager.apart hstrict hn hpages none hpager.start hout _ hperm (sorted_sort all)
  · intro hapart
    obtain ⟨pages, hpages, hout⟩ := hpager.complete hstrict hn hpager.start hperm (sorted_sort all) hapart
    exact ⟨pages, hpages, hout, (hpager.sorted hstrict hn hpages none hpager.start).1⟩

end

end

end

end Paging
