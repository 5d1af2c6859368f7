import Mathlib.Data.List.AList
import Mathlib.Data.List.Induction

/-! Finite maps with one value per key, over Mathlib's association lists. Insertion, removal and
lookup are `AList`'s own; this file adds the operations that walk a whole map (keeping the entries
that pass a test, rewriting every value, listing the values) and the lookup equations in the
one-line form the proofs rewrite with. The order of the entries carries no meaning: no lemma below
speaks about it. -/

/-- A finite map from keys to values. -/
abbrev Dict (K V : Type) := AList fun _ : K => V

namespace Dict

open List AList

variable {K V W : Type} [DecidableEq K] {members : List (K × V)} {d : Dict K V} {k : K} {K' : Type} {v : V}

/-- The map with one entry. -/
def single (k : K) (v : V) : Dict K V := AList.singleton k v

/-- The value at a key, or a default where the key is absent. -/
def getD (d : Dict K V) (k : K) (default : V) : V := (d.lookup k).getD default

/-- Keep the entries that pass a test. -/
def retain (p : K → V → Bool) (d : Dict K V) : Dict K V :=
  ⟨d.entries.filter fun e => p e.1 e.2, d.nodupKeys.sublist List.filter_sublist⟩

/-- Rewrite every value, keys untouched. -/
def mapValues (f : K → V → W) (d : Dict K V) : Dict K W :=
  ⟨d.entries.map fun e => ⟨e.1, f e.1 e.2⟩, by
    have h := d.nodupKeys
    rw [List.NodupKeys, List.keys] at h ⊢
    simpa [List.map_map, Function.comp_def] using h⟩

/-- The values, one for each key. -/
def values (d : Dict K V) : List V := d.entries.map fun e => e.2

/-- Rewrite the value at one key, where there is one. -/
def modify (k : K) (f : V → V) (d : Dict K V) : Dict K V :=
  match d.lookup k with
  | some v => d.insert k (f v)
  | none => d

/-- Insert every pair of a list, from its first to its last. -/
def insertAll (d : Dict K V) (entries : List (K × V)) : Dict K V := entries.foldl (fun acc e => acc.insert e.1 e.2) d

/-- Put the entries of the second map into the first; where a key is in both, its values are combined. -/
def mergeWith (f : V → V → V) (d d' : Dict K V) : Dict K V :=
  d'.entries.foldl (fun acc e => acc.insert e.1 (match acc.lookup e.1 with
    | some v => f v e.2
    | none => e.2)) d

/-- Every entry of the first map is one of the second. -/
def Sub (d d' : Dict K V) : Prop := ∀ k v, d.lookup k = some v → d'.lookup k = some v

theorem Sub.refl (d : Dict K V) : d.Sub d := fun _ _ h => h

theorem Sub.trans {d' d'' : Dict K V} (h : d.Sub d') (h' : d'.Sub d'') : d.Sub d'' :=
  fun k v hk => h' k v (h k v hk)

/-! ### Lookup equations -/

theorem lookup_insert_eq (k k' : K) (v : V) (d : Dict K V) :
    (d.insert k v).lookup k' = if k' = k then some v else d.lookup k' := by
  by_cases h : k' = k
  · subst h
    rw [lookup_insert, if_pos rfl]
  · rw [lookup_insert_ne h, if_neg h]

theorem lookup_erase_eq (k k' : K) (d : Dict K V) : (d.erase k).lookup k' = if k' = k then none else d.lookup k' := by
  by_cases h : k' = k
  · subst h
    rw [lookup_erase, if_pos rfl]
  · rw [lookup_erase_ne h, if_neg h]

theorem lookup_single (k : K) (v : V) : (single k v).lookup k = some v := (lookup_insert_eq k k v ∅).trans (if_pos rfl)

theorem erase_sub (k : K) (d : Dict K V) : Sub (d.erase k) d := by
  intro k' v h
  rw [lookup_erase_eq] at h
  split at h
  · cases h
  · exact h

theorem lookup_eq_some_iff : d.lookup k = some v ↔ (⟨k, v⟩ : Sigma fun _ : K => V) ∈ d.entries := mem_lookup_iff

theorem lookup_retain (p : K → V → Bool) (d : Dict K V) (k : K) :
    (d.retain p).lookup k = (d.lookup k).filter (p k) := by
  ext v
  rw [lookup_eq_some_iff, Option.filter_eq_some_iff, lookup_eq_some_iff]
  exact mem_filter

omit [DecidableEq K] in
theorem retain_retain (p : K → V → Bool) (d : Dict K V) : (d.retain p).retain p = d.retain p :=
  AList.ext (by simp [retain, filter_filter])

theorem lookup_mapValues (f : K → V → W) (d : Dict K V) (k : K) :
    (d.mapValues f).lookup k = (d.lookup k).map (f k) := by
  ext w
  rw [lookup_eq_some_iff, Option.map_eq_some_iff]
  constructor
  · intro h
    obtain ⟨⟨k', v⟩, hmem, heq⟩ := mem_map.mp h
    cases heq
    exact ⟨v, lookup_eq_some_iff.mpr hmem, rfl⟩
  · rintro ⟨v, hv, rfl⟩
    exact mem_map.mpr ⟨⟨k, v⟩, lookup_eq_some_iff.mp hv, rfl⟩

theorem mem_values : v ∈ d.values ↔ ∃ k, d.lookup k = some v := by
  constructor
  · intro h
    obtain ⟨⟨k, v'⟩, hmem, heq⟩ := mem_map.mp h
    cases heq
    exact ⟨k, lookup_eq_some_iff.mpr hmem⟩
  · rintro ⟨k, hk⟩
    exact mem_map.mpr ⟨⟨k, v⟩, lookup_eq_some_iff.mp hk, rfl⟩

theorem lookup_modify (k k' : K) (f : V → V) (d : Dict K V) :
    (d.modify k f).lookup k' = if k' = k then (d.lookup k).map f else d.lookup k' := by
  unfold modify
  cases h : d.lookup k with
  | some v => simp only [lookup_insert_eq, Option.map_some]
  | none =>
    by_cases hk : k' = k
    · subst hk
      simp [h]
    · simp [hk]

theorem bind_lookup_insert_nested [DecidableEq K'] (d : Dict K (Dict K' V)) (k k₁ : K) (j j₁ : K') (v : V) :
    ((d.insert k ((d.getD k ∅).insert j v)).lookup k₁).bind (·.lookup j₁) =
      if k₁ = k ∧ j₁ = j then some v else (d.lookup k₁).bind (·.lookup j₁) := by
  rw [lookup_insert_eq]
  by_cases hk : k₁ = k
  · subst hk
    rw [if_pos rfl, Option.bind_some, lookup_insert_eq]
    by_cases hj : j₁ = j
    · simp [hj]
    · rw [if_neg hj, if_neg fun h => hj h.2, getD]
      cases d.lookup k₁ <;> rfl
  · rw [if_neg hk, if_neg fun h => hk h.1]

theorem exists_of_getD {default : V} {p : V → Prop} (h : p (d.getD k default))
    (hdefault : ¬ p default) : ∃ v, d.lookup k = some v ∧ p v := by
  unfold getD at h
  cases hlookup : d.lookup k with
  | none =>
    rw [hlookup] at h
    exact absurd h hdefault
  | some v =>
    rw [hlookup] at h
    exact ⟨v, rfl, h⟩

theorem lookup_insert_nested [DecidableEq K'] {d : Dict K (Dict K' V)} {k₁ : K} {j j₁ : K'} {v₁ : V}
    {inner : Dict K' V} (houter : (d.insert k ((d.getD k ∅).insert j v)).lookup k₁ = some inner)
    (hinner : inner.lookup j₁ = some v₁) :
    (k₁ = k ∧ j₁ = j ∧ v₁ = v) ∨ ∃ old, d.lookup k₁ = some old ∧ old.lookup j₁ = some v₁ := by
  rw [lookup_insert_eq] at houter
  split at houter
  · rename_i hk
    cases houter
    rw [lookup_insert_eq] at hinner
    split at hinner
    · rename_i hj
      cases hinner
      exact Or.inl ⟨hk, hj, rfl⟩
    obtain ⟨old, hold, hinner⟩ := exists_of_getD (p := fun m : Dict K' V => m.lookup j₁ = some v₁) hinner (by simp)
    exact Or.inr ⟨old, hk ▸ hold, hinner⟩
  · exact Or.inr ⟨inner, houter, hinner⟩

theorem flatMap_entries_key {α : Type*} (d : Dict K V) (k : K) (p : V → Bool) (x : α) :
    (d.entries.flatMap fun e => if e.1 = k ∧ p e.2 = true then [x] else []) =
      if (d.lookup k).any p then [x] else [] := by
  obtain ⟨entries, hnodup⟩ := d
  change _ = if (List.dlookup k entries).any p then [x] else []
  induction entries with
  | nil => rfl
  | cons e entries ih =>
    obtain ⟨hnotMem, hrest⟩ := nodupKeys_cons.mp hnodup
    rw [flatMap_cons, ih hrest]
    by_cases hk : e.1 = k
    · subst hk
      rw [dlookup_cons_eq, dlookup_eq_none.mpr hnotMem]
      simp
    · rw [dlookup_cons_ne _ _ (Ne.symm hk)]
      simp [hk]

theorem lookup_mergeWith (f : V → V → V) (d d' : Dict K V) (k : K) : (mergeWith f d d').lookup k =
      match d.lookup k, d'.lookup k with
      | some v, some v' => some (f v v')
      | some v, none => some v
      | none, v' => v' := by
  obtain ⟨entries, hnodup⟩ := d'
  unfold mergeWith
  change _ = match d.lookup k, List.dlookup k entries with
    | some v, some v' => some (f v v')
    | some v, none => some v
    | none, v' => v'
  induction entries generalizing d with
  | nil =>
    simp only [foldl_nil, dlookup_nil]
    cases d.lookup k <;> rfl
  | cons e entries ih =>
    obtain ⟨hnotMem, hrest⟩ := nodupKeys_cons.mp hnodup
    simp only [foldl_cons]
    rw [ih _ hrest, lookup_insert_eq]
    by_cases hk : k = e.1
    · subst hk
      rw [if_pos rfl, dlookup_cons_eq, dlookup_eq_none.mpr hnotMem]
      cases d.lookup e.1 <;> rfl
    · rw [if_neg hk, dlookup_cons_ne _ _ hk]

theorem lookup_insertAll_append {l l' : List (K × V)}
    (h : k ∉ l'.map Prod.fst) : (insertAll d (l ++ l')).lookup k = (insertAll d l).lookup k := by
  induction l' using List.reverseRecOn with
  | nil => rw [append_nil]
  | append_singleton l' e ih =>
    rw [map_append, mem_append, not_or] at h
    have hne : k ≠ e.1 := fun heq => h.2 (by simp [heq])
    have hstep : insertAll d (l ++ (l' ++ [e])) = (insertAll d (l ++ l')).insert e.1 e.2 := by
      simp [insertAll]
    rw [hstep, lookup_insert_ne hne, ih h.1]

theorem lookup_insertAll_congr {d' : Dict K V} (h : d.lookup k = d'.lookup k) (l : List (K × V)) :
    (insertAll d l).lookup k = (insertAll d' l).lookup k := by
  induction l generalizing d d' with
  | nil => exact h
  | cons e l ih =>
    refine ih ?_
    rw [lookup_insert_eq, lookup_insert_eq, h]

/-- Entries under other keys do not matter. -/
theorem lookup_insertAll_skip {l l' : List (K × V)} (h : k ∉ l.map Prod.fst) :
    (insertAll d (l ++ l')).lookup k = (insertAll d l').lookup k := by
  rw [insertAll, foldl_append]
  exact lookup_insertAll_congr (lookup_insertAll_append (l := []) h) l'

theorem values_erase_single (k : K) (v : V) : Dict.values (AList.erase k (AList.insert k v (∅ : Dict K V))) = [] := by
  have hentries : (AList.insert k v (∅ : Dict K V)).entries = [⟨k, v⟩] := entries_insert_of_notMem (notMem_empty k)
  change ((AList.insert k v (∅ : Dict K V)).entries.kerase k).map _ = []
  simp [List.kerase]

theorem entries_insertAll {l : List (K × V)} (h : (l.map Prod.fst).Nodup) :
    (insertAll ∅ l).entries = (l.map fun e => (⟨e.1, e.2⟩ : Sigma fun _ : K => V)).reverse := by
  induction l using List.reverseRecOn with
  | nil => rfl
  | append_singleton l e ih =>
    rw [map_append, nodup_append] at h
    obtain ⟨hl, -, hdisjoint⟩ := h
    have hentries := ih hl
    have hnotMem : e.1 ∉ insertAll (∅ : Dict K V) l := by
      rw [AList.mem_keys, AList.keys, hentries, List.keys]
      simp only [map_reverse, map_map, mem_reverse]
      intro hmem
      exact hdisjoint e.1 hmem e.1 mem_cons_self rfl
    have hstep : insertAll (∅ : Dict K V) (l ++ [e]) = (insertAll ∅ l).insert e.1 e.2 := by
      simp [insertAll]
    rw [hstep, AList.entries_insert_of_notMem hnotMem, hentries]
    simp

theorem length_entries_eq {d' : Dict K W}
    (h : ∀ k, (d.lookup k).isSome = (d'.lookup k).isSome) : d.entries.length = d'.entries.length := by
  have hkeys : d.keys.Perm d'.keys := by
    refine (perm_ext_iff_of_nodup d.keys_nodup d'.keys_nodup).mpr fun k => ?_
    rw [← AList.mem_keys, ← AList.mem_keys, ← AList.lookup_isSome, ← AList.lookup_isSome, h k]
  calc
    d.entries.length = d.keys.length := (length_map _).symm
    _ = d'.keys.length := hkeys.length_eq
    _ = d'.entries.length := length_map _

/-! ### Lists of members -/

theorem lookup_cons_ne {member : K × V} (h : k ≠ member.1) : (member :: members).lookup k = members.lookup k := by
  rw [lookup_cons, beq_false_of_ne h]

theorem lookup_eq_none_of_notMem (h : k ∉ members.map Prod.fst) : members.lookup k = none := by
  induction members with
  | nil => rfl
  | cons member members ih =>
    rw [map_cons, mem_cons, not_or] at h
    rw [lookup_cons_ne h.1, ih h.2]

theorem lookup_eq_some_of_mem (hnodup : (members.map Prod.fst).Nodup) {member : K × V}
    (h : member ∈ members) : members.lookup member.1 = some member.2 := by
  induction members with
  | nil => cases h
  | cons first members ih =>
    rw [map_cons, nodup_cons] at hnodup
    rcases mem_cons.mp h with rfl | h
    · rw [lookup_cons, beq_self_eq_true]
    have hne : member.1 ≠ first.1 := fun heq => hnodup.1 (heq ▸ mem_map_of_mem h)
    rw [lookup_cons_ne hne]
    exact ih hnodup.2 h

theorem lookup_insertAll (hnodup : (members.map Prod.fst).Nodup) (d : Dict K V) (k : K) :
    (insertAll d members).lookup k = (members.lookup k).or (d.lookup k) := by
  induction members generalizing d with
  | nil => rfl
  | cons member members ih =>
    rw [map_cons, nodup_cons] at hnodup
    have hstep : insertAll d (member :: members) = insertAll (d.insert member.1 member.2) members := rfl
    rw [hstep, ih hnodup.2, lookup_insert_eq]
    by_cases hk : k = member.1
    · have hnone : members.lookup k = none := lookup_eq_none_of_notMem (hk ▸ hnodup.1)
      rw [lookup_cons]
      simp [hk, hk ▸ hnone]
    · rw [if_neg hk, lookup_cons_ne hk]

theorem lookup_insertAll_empty (hnodup : (members.map Prod.fst).Nodup) (k : K) :
    (insertAll ∅ members).lookup k = members.lookup k := by
  rw [lookup_insertAll hnodup, lookup_empty, Option.or_none]

end Dict
