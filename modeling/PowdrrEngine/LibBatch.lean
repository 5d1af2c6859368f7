import Mathlib.Data.List.Basic

/-! Batches of operations on one key of a versioned store that keeps the live versions of the key,
newest first. Applied one by one, an operation sees the versions its predecessors have left. In a batch
every operation sees the versions before the batch: new versions come first, then those that replace a
version, and the version the operations found goes. `Shape` says which batches leave at most one
version, and the newest one of the operations applied one by one. -/

namespace Batch

open List Option

/-- An operation on the versions of a key. -/
inductive Op (α : Type) where
  /-- Add a version without looking at the others; `none` is refused. -/
  | push (version : Option α)
  /-- Put a version made of the newest one in its place; `none` is refused. -/
  | replace (make : Option α → Option α)
  /-- Drop the newest version. -/
  | delete

variable {α : Type}

namespace Op

variable (versions : List α)

/-- The version an operation adds where it finds the given ones. -/
def made : Op α → List α
  | push version => version.toList
  | replace make => (make versions.head?).toList
  | delete => []

/-- An operation that is not refused. -/
def accepted : Op α → Bool
  | push version => version.isSome
  | replace make => (make versions.head?).isSome
  | delete => true

def apply : Op α → List α
  | push version => version.toList ++ versions
  | replace make =>
    match make versions.head? with
    | some version => version :: versions.tail
    | none => versions
  | delete => versions.tail

/-- An operation whose version is new in a batch. -/
def isInsert : Op α → Bool
  | push _ => true
  | replace _ => versions.isEmpty
  | delete => false

/-- An operation that drops the version it finds. -/
def drops : Op α → Bool
  | push _ => false
  | replace _ | delete => true

end Op

section

variable (versions : List α) (ops : List (Op α))

/-- The operations one by one. -/
def run : List α := ops.foldl Op.apply versions

/-- The versions that the operations of a batch make; the inserted ones come first. -/
def added : List α :=
  (ops.filter fun op => op.isInsert versions).flatMap (Op.made versions) ++
    (ops.filter fun op => !op.isInsert versions).flatMap (Op.made versions)

/-- The operations as a batch. -/
def batch : List α :=
  added versions ops ++ if ops.any Op.drops then versions.tail else versions

end

/-- The last operation of a batch after deletes. -/
def FitsLast (versions : List α) (deletes : Nat) : Op α → Prop
  | .push _ => versions = [] ∨ deletes ≠ 0
  | .replace make => versions = [] ∨ deletes = 0 ∨ make none = make versions.head?
  | .delete => False

/-- The batches that do what their operations do one by one. -/
inductive Shape (versions : List α) : List (Op α) → Prop where
  /-- Only deletes. -/
  | deletes (n : Nat) (h : versions.length ≤ 1) : Shape versions (List.replicate n .delete)
  /-- One delete where there are two versions. -/
  | oneOfTwo (h : versions.length = 2) : Shape versions [.delete]
  /-- Deletes, and one other operation after them. -/
  | last (n : Nat) (op : Op α) (h : versions.length ≤ 1) (hop : FitsLast versions n op) :
      Shape versions (List.replicate n .delete ++ [op])
  /-- A version equal to the only one is added, and a delete follows. -/
  | undone (version : α) (h : versions = [version]) : Shape versions [.push (some version), .delete]

variable {versions : List α} {op : Op α}

theorem Op.apply_of_not_accepted (h : ¬op.accepted versions = true) : op.apply versions = versions := by
  cases op with
  | push version =>
    cases version with
    | none => rfl
    | some version => exact absurd rfl h
  | replace make =>
    cases hmake : make versions.head? with
    | none => rw [Op.apply, hmake]
    | some version => exact absurd (by rw [Op.accepted, hmake]; rfl) h
  | delete => exact absurd rfl h

theorem run_append (ops ops' : List (Op α)) : run versions (ops ++ ops') = run (run versions ops) ops' := foldl_append

theorem run_deletes (n : Nat) : run versions (List.replicate n .delete) = versions.drop n := by
  induction n generalizing versions with
  | zero => rfl
  | succ n ih =>
    change run versions.tail (List.replicate n .delete) = _
    rw [ih, ← drop_one, drop_drop, Nat.add_comm]

theorem made_deletes (p : Op α → Bool) (n : Nat) :
    ((List.replicate n Op.delete).filter p).flatMap (Op.made versions) = [] := by
  rw [flatMap_eq_nil_iff]
  intro op hop
  rw [eq_of_mem_replicate (mem_of_mem_filter hop)]
  rfl

theorem batch_deletes (n : Nat) : batch versions (List.replicate n Op.delete) =
    if n = 0 then versions else versions.tail := by
  rw [batch, added, made_deletes, made_deletes, nil_append, nil_append]
  cases n with
  | zero => rfl
  | succ n => rfl

theorem length_added (ops : List (Op α)) : (added versions ops).length = (ops.flatMap (Op.made versions)).length := by
  induction ops with
  | nil => rfl
  | cons op ops ih =>
    unfold added at ih ⊢
    rw [length_append] at ih ⊢
    cases h : op.isInsert versions with
    | true =>
      simp only [filter_cons, h, if_true, Bool.not_true, Bool.false_eq_true, if_false, flatMap_cons, length_append]
      omega
    | false =>
      simp only [filter_cons, h, if_true, Bool.not_false, Bool.false_eq_true, if_false, flatMap_cons, length_append]
      omega

theorem eq_deletes_or_split (ops : List (Op α)) : (∃ n, ops = List.replicate n .delete) ∨
      ∃ n op rest, op ≠ .delete ∧ ops = List.replicate n .delete ++ op :: rest := by
  induction ops with
  | nil => exact Or.inl ⟨0, rfl⟩
  | cons op ops ih =>
    by_cases hop : op = .delete
    · subst hop
      rcases ih with ⟨n, rfl⟩ | ⟨n, op, rest, hop, rfl⟩
      · exact Or.inl ⟨n + 1, rfl⟩
      · exact Or.inr ⟨n + 1, op, rest, hop, rfl⟩
    · exact Or.inr ⟨0, op, ops, hop, rfl⟩

theorem made_of_accepted (h : op.accepted versions = true) (hop : op ≠ .delete) :
    ∃ version, op.made versions = [version] := by
  cases op with
  | push version =>
    obtain ⟨v, rfl⟩ := isSome_iff_exists.mp h
    exact ⟨v, rfl⟩
  | replace make =>
    obtain ⟨v, hv⟩ := isSome_iff_exists.mp h
    exact ⟨v, by rw [Op.made, hv]; rfl⟩
  | delete => exact absurd rfl hop

variable {ops : List (Op α)}

theorem eq_deletes_of_made (hops : ∀ op ∈ ops, op.accepted versions = true)
    (h : ops.flatMap (Op.made versions) = []) : ∃ n, ops = List.replicate n .delete := by
  refine ⟨ops.length, eq_replicate_of_mem fun op hop => ?_⟩
  by_contra hne
  obtain ⟨version, hmade⟩ := made_of_accepted (hops op hop) hne
  rw [flatMap_eq_nil_iff.mp h op hop] at hmade
  cases hmade

variable {version : α}

theorem batch_one (hmade : op.made versions = [version]) (j k : Nat) :
    batch versions (List.replicate j .delete ++ op :: List.replicate k .delete) =
      version :: if op.drops = true ∨ j ≠ 0 ∨ k ≠ 0 then versions.tail else versions := by
  have hadded : added versions (List.replicate j .delete ++ op :: List.replicate k .delete) = [version] := by
    unfold added
    cases h : op.isInsert versions with
    | true => simp [h, hmade, made_deletes]
    | false => simp [h, hmade, made_deletes]
  have hdrops : (List.replicate j Op.delete ++ op :: List.replicate k Op.delete).any Op.drops = true ↔
      op.drops = true ∨ j ≠ 0 ∨ k ≠ 0 := by
    cases j with
    | zero =>
      cases k with
      | zero => simp
      | succ k => simp [replicate_succ, Op.drops]
    | succ j => simp [replicate_succ, Op.drops]
  rw [batch, hadded]
  simp only [hdrops, singleton_append]

theorem batch_single (h : op.accepted versions = true) : batch versions [op] = run versions [op] := by
  by_cases hop : op = .delete
  · rw [hop]
    rfl
  obtain ⟨version, hmade⟩ := made_of_accepted h hop
  have hbatch := batch_one hmade 0 0
  rw [replicate_zero, nil_append] at hbatch
  rw [hbatch]
  cases op with
  | push doc =>
    obtain ⟨v, rfl⟩ := isSome_iff_exists.mp h
    cases hmade
    rfl
  | replace make =>
    obtain ⟨v, hv⟩ := isSome_iff_exists.mp h
    rw [Op.made, hv] at hmade
    cases hmade
    simp [run, Op.apply, hv, Op.drops]
  | delete => exact absurd rfl hop

theorem run_one (op : Op α) (j k : Nat) : run versions (List.replicate j .delete ++ op :: List.replicate k .delete) =
      (op.apply (versions.drop j)).drop k := by
  rw [run_append, run_deletes]
  change run (op.apply (versions.drop j)) _ = _
  rw [run_deletes]

/-! ### When a batch is its operations one by one -/

/-- At most one version is left, and the newest one is that of the operations one by one. -/
def Agrees (versions : List α) (ops : List (Op α)) : Prop :=
  (batch versions ops).length ≤ 1 ∧ (batch versions ops).head? = (run versions ops).head?

theorem agrees_deletes (n : Nat) :
    Agrees versions (List.replicate n .delete) ↔ Shape versions (List.replicate n .delete) := by
  rw [Agrees, batch_deletes, run_deletes]
  constructor
  · rintro ⟨hlength, hhead⟩
    by_cases hone : versions.length ≤ 1
    · exact .deletes n hone
    -- Two versions are left alone by no delete, and emptied by two.
    match n, versions with
    | 0, _ => exact absurd hlength hone
    | n + 1, [a, b] =>
      cases n with
      | zero => exact .oneOfTwo rfl
      | succ n => simp at hhead
    | n + 1, [] => simp at hone
    | n + 1, [a] => simp at hone
    | n + 1, a :: b :: c :: rest => simp at hlength
  · generalize hops : List.replicate n Op.delete = ops
    intro hshape
    cases hshape with
    | deletes m hone =>
      cases n with
      | zero => exact ⟨hone, rfl⟩
      | succ n =>
        match versions, hone with
        | [], _ => simp
        | [a], _ => simp
    | oneOfTwo htwo =>
      match n, versions, htwo with
      | 1, [a, b], _ => simp
      | 0, _, _ => cases hops
      | n + 2, _, _ => cases hops
    | last m op hone hop =>
      have hmem : op ∈ List.replicate n Op.delete := hops ▸ mem_append_right _ mem_cons_self
      rw [eq_of_mem_replicate hmem] at hop
      exact hop.elim
    | undone version hone =>
      have hmem : Op.push (some version) ∈ List.replicate n Op.delete := hops ▸ mem_cons_self
      cases eq_of_mem_replicate hmem

theorem agrees_push (version : α) (j k : Nat) :
    Agrees versions (List.replicate j .delete ++ .push (some version) :: List.replicate k .delete) ↔
      (k = 0 ∧ versions.length ≤ 1 ∧ FitsLast versions j (.push (some version))) ∨
        (j = 0 ∧ k = 1 ∧ versions = [version]) := by
  rw [Agrees, batch_one rfl, run_one]
  simp only [Op.drops, Op.apply, toList_some, FitsLast, Bool.false_eq_true, false_or,
    head?_cons, length_cons, singleton_append]
  cases k with
  | zero =>
    cases j with
    | zero => cases versions <;> simp
    | succ j => cases versions <;> simp
  | succ k =>
    match versions with
    | [] => simp
    | [v] =>
      cases j with
      | zero =>
        cases k with
        | zero => simp [eq_comm]
        | succ k => simp
      | succ j => simp
    | a :: b :: rest => simp

theorem agrees_replace {make : Option α → Option α} (hmake : make versions.head? = some version) (j k : Nat) :
    Agrees versions (List.replicate j .delete ++ .replace make :: List.replicate k .delete) ↔
      k = 0 ∧ versions.length ≤ 1 ∧ FitsLast versions j (.replace make) := by
  have hmade : (Op.replace make).made versions = [version] := by rw [Op.made, hmake]; rfl
  rw [Agrees, batch_one hmade, run_one]
  simp only [Op.drops, Op.apply, FitsLast, true_or, if_true, head?_cons, length_cons]
  match versions with
  | [] =>
    rw [head?_nil] at hmake
    cases k <;> simp [hmake]
  | [v] =>
    rw [head?_cons] at hmake
    cases j with
    | zero => cases k <;> simp [hmake]
    | succ j =>
      -- After the deletes there is no version to make the new one of.
      cases hnone : make none with
      | none => cases k <;> simp [hnone, hmake]
      | some other => cases k <;> simp [hnone, hmake, eq_comm]
  | a :: b :: rest => simp

/-- **The batches that agree with their operations one by one**, among those whose operations are
accepted where they are. -/
theorem agrees_iff_shape (hops : ∀ op ∈ ops, op.accepted versions = true) :
    Agrees versions ops ↔ Shape versions ops := by
  rcases eq_deletes_or_split ops with ⟨n, rfl⟩ | ⟨j, op, rest, hop, rfl⟩
  · exact agrees_deletes n
  have haccepted : op.accepted versions = true := hops op (mem_append_right _ mem_cons_self)
  obtain ⟨version, hmade⟩ := made_of_accepted haccepted hop
  have hrest : ∀ op ∈ rest, op.accepted versions = true := fun op hmem =>
    hops op (mem_append_right _ (mem_cons_of_mem _ hmem))
  constructor
  · intro hagrees
    -- A second version would be left beside the first.
    have hnone : rest.flatMap (Op.made versions) = [] := by
      have hlength := hagrees.1
      rw [batch, length_append, length_added, flatMap_append, flatMap_cons, hmade,
        length_append, length_append] at hlength
      rw [← length_eq_zero_iff]
      simp only [length_singleton] at hlength
      omega
    obtain ⟨k, rfl⟩ := eq_deletes_of_made hrest hnone
    cases op with
    | push doc =>
      obtain ⟨v, rfl⟩ := isSome_iff_exists.mp haccepted
      rcases (agrees_push v j k).mp hagrees with ⟨rfl, hone, hfits⟩ | ⟨rfl, rfl, hsame⟩
      · exact .last j _ hone hfits
      · exact .undone v hsame
    | replace make =>
      obtain ⟨v, hv⟩ := isSome_iff_exists.mp haccepted
      obtain ⟨rfl, hone, hfits⟩ := (agrees_replace hv j k).mp hagrees
      exact .last j _ hone hfits
    | delete => exact absurd rfl hop
  · generalize hall : List.replicate j Op.delete ++ op :: rest = ops
    intro hshape
    cases hshape with
    | deletes n hone =>
      have hmem : op ∈ List.replicate n Op.delete := hall ▸ mem_append_right _ mem_cons_self
      exact absurd (eq_of_mem_replicate hmem) hop
    | oneOfTwo htwo => exact (agrees_deletes 1).mpr (.oneOfTwo htwo)
    | last n last hone hfits =>
      cases last with
      | push doc =>
        cases doc with
        | none =>
          have hmem : Op.push none ∈ List.replicate j Op.delete ++ op :: rest := hall ▸ mem_append_right _ mem_cons_self
          cases hops _ hmem
        | some v => exact (agrees_push v n 0).mpr (.inl ⟨rfl, hone, hfits⟩)
      | replace make =>
        have hmem : Op.replace make ∈ List.replicate j Op.delete ++ op :: rest :=
          hall ▸ mem_append_right _ mem_cons_self
        obtain ⟨v, hv⟩ := isSome_iff_exists.mp (hops _ hmem)
        exact (agrees_replace hv n 0).mpr ⟨rfl, hone, hfits⟩
      | delete => exact hfits.elim
    | undone v hsame => exact (agrees_push v 0 1).mpr (.inr ⟨rfl, rfl, hsame⟩)

end Batch
