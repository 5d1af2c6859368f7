import PowdrrEngine.IngestRows

/-! Documents. An update merges a patch along the paths it names: what it does not name stays, its leaves
take their places, and merging it once more changes nothing. A stored document has a column for each leaf,
named by the joined keys, unless two leaves or a leaf and a column of the engine have one name. -/

namespace PowdrrEngine

open List Dict

namespace Value

variable {path : List String}

/-- No object has two members of one name, as in every `serde_json::Map`. -/
inductive Distinct : Value → Prop
  | object {members} : (members.map Prod.fst).Nodup → (∀ m ∈ members, Distinct m.2) → Distinct (.object members)
  | leaf {value} : (∀ members, value ≠ .object members) → Distinct value

def getPath : Value → List String → Option Value
  | value, [] => some value
  | value, key :: path => (value.get key).bind (·.getPath path)

/-- The path leaves the document at an object that does not have the next key. -/
def Misses : Value → List String → Prop
  | .object members, key :: path => ∀ value ∈ (Value.object members).get key, value.Misses path
  | _, _ => False

variable {existing value : Value} {members updates : List (String × Value)} {key name : String}

/-! ### One key -/

theorem mergeValue_leaf (h : ∀ members, value ≠ .object members) : mergeValue existing value = value := by
  cases value with
  | object members => exact absurd rfl (h members)
  | null | bool | number | string | array => rfl

theorem mergeValue_null : mergeValue .null value = value := by
  cases value <;> rfl

theorem get_object : (Value.object members).get name = (members.find? fun m => m.1 = name).map Prod.snd := rfl

theorem get_cons : (Value.object ((key, value) :: members)).get name =
    if name = key then some value else (Value.object members).get name := by
  rw [get_object, find?_cons]
  by_cases hname : name = key
  · simp [hname]
  · simp [hname, Ne.symm hname, get_object]

theorem get_insertMember : (Value.object (insertMember members key value)).get name =
    if name = key then some value else (Value.object members).get name := by
  rw [get_object, get_object, insertMember]
  split
  · rename_i hany
    have hsame : ∀ m : String × Value, (if m.1 = key then (key, value) else m).1 = m.1 := by
      intro m
      split
      · rename_i hm
        exact hm.symm
      · rfl
    simp only [find?_map, Function.comp_def, hsame]
    cases hfind : members.find? fun m => m.1 = name with
    | none =>
      have hne : name ≠ key := by
        rintro rfl
        obtain ⟨m, hm, hkey⟩ := any_eq_true.mp hany
        exact find?_eq_none.mp hfind m hm hkey
      rw [if_neg hne]
      rfl
    | some m =>
      have hm : m.1 = name := by simpa using find?_some hfind
      subst hm
      simp only [Option.map_some]
      split <;> rfl
  · rename_i hany
    simp only [find?_append, find?_singleton]
    by_cases hname : name = key
    · subst hname
      have hnone : members.find? (fun m => m.1 = name) = none :=
        find?_eq_none.mpr fun m hm hkey => hany (any_eq_true.mpr ⟨m, hm, hkey⟩)
      simp [hnone]
    · simp [hname, Ne.symm hname]

theorem get_mergeMembers (hnodup : (updates.map Prod.fst).Nodup) (members : List (String × Value)) :
    (Value.object (mergeMembers members updates)).get name =
      match (Value.object updates).get name with
      | none => (Value.object members).get name
      | some value => some (patched ((Value.object members).get name) value) := by
  induction updates generalizing members with
  | nil => rw [mergeMembers]; rfl
  | cons update updates ih =>
    obtain ⟨key, value⟩ := update
    obtain ⟨hnotin, hnodup⟩ := nodup_cons.mp hnodup
    rw [mergeMembers, ih hnodup, mergeMember_eq, get_insertMember]
    by_cases hname : name = key
    · subst hname
      have hnone : (Value.object updates).get name = none := by
        cases hget : (Value.object updates).get name with
        | none => rfl
        | some v => exact absurd (mem_map_of_mem (mem_of_get_object hget)) hnotin
      rw [hnone, get_cons, if_pos rfl, if_pos rfl]
    · rw [get_cons, if_neg hname, if_neg hname]

/-! ### Paths -/

theorem getPath_of_misses (h : value.Misses path) : value.getPath path = none := by
  induction path generalizing value with
  | nil => cases value <;> cases h
  | cons key path ih =>
    cases value with
    | object members => exact Option.bind_eq_none_iff.mpr fun member hmember => ih (h member hmember)
    | null | bool | number | string | array => cases h

theorem get_mergeValue (h : (Value.object updates).Distinct) : (mergeValue existing (.object updates)).get name =
      match (Value.object updates).get name with
      | none => existing.get name
      | some value => some (patched (existing.get name) value) := by
  cases h with
  | leaf hleaf => exact absurd rfl (hleaf updates)
  | object hnodup _ =>
    cases existing with
    | object members => exact get_mergeMembers hnodup members
    | null | bool | number | string | array =>
      rw [mergeValue]
      · cases (Value.object updates).get name <;> rfl
      · nofun

theorem Distinct.get (h : (Value.object updates).Distinct) (hget : (Value.object updates).get key = some value) :
    value.Distinct := by
  cases h with
  | leaf hleaf => exact absurd rfl (hleaf updates)
  | object _ hmembers => exact hmembers _ (mem_of_get_object hget)

theorem getPath_mergeValue (existing : Value) (hvalue : value.Distinct) :
    (value.Misses path → (mergeValue existing value).getPath path = existing.getPath path) ∧
    ∀ leaf, value.getPath path = some leaf → (∀ members, leaf ≠ .object members) →
      (mergeValue existing value).getPath path = some leaf := by
  induction path generalizing value existing with
  | nil =>
    refine ⟨fun h => (by cases value <;> cases h), fun leaf h hleaf => ?_⟩
    cases h
    rw [getPath, mergeValue_leaf hleaf]
  | cons key path ih =>
    cases value with
    | object updates =>
      rw [getPath, getPath, getPath, get_mergeValue hvalue]
      cases hget : (Value.object updates).get key with
      | none => exact ⟨fun _ => rfl, nofun⟩
      | some value =>
        cases existing.get key with
        | none => exact ⟨fun h => getPath_of_misses (h value hget), fun _ h _ => h⟩
        | some old =>
          obtain ⟨hmisses, hleaf⟩ := ih old (hvalue.get hget)
          exact ⟨fun h => hmisses (h value hget), hleaf⟩
    | null | bool | number | string | array => exact ⟨nofun, nofun⟩

/-! ### The same patch again -/

section

variable (hnodup : (members.map Prod.fst).Nodup)

include hnodup

theorem get_of_mem (h : (key, value) ∈ members) :
    (Value.object members).get key = some value := by
  rw [get_object, (Lists.find?_eq_some_of_nodup hnodup).mpr ⟨h, rfl⟩]
  rfl

theorem insertMember_of_get (h : (Value.object members).get key = some value) :
    insertMember members key value = members := by
  have hmem := mem_of_get_object h
  rw [insertMember, if_pos (any_eq_true.mpr ⟨_, hmem, decide_eq_true rfl⟩)]
  refine (map_congr_left fun m hm => ?_).trans (map_id _)
  split
  · exact (inj_on_of_nodup_map hnodup hm hmem ‹_›).symm
  · rfl

theorem nodup_mergeMembers (updates : List (String × Value)) :
    ((mergeMembers members updates).map Prod.fst).Nodup := by
  induction updates generalizing members with
  | nil =>
    rw [mergeMembers]
    exact hnodup
  | cons update updates ih =>
    rw [mergeMembers, mergeMember_eq]
    refine ih ?_
    unfold insertMember
    split
    · have hsame : (Prod.fst ∘ fun m : String × Value => if m.1 = update.1 then (update.1, patched
          ((Value.object members).get update.1) update.2) else m) = Prod.fst := by
        funext m
        grind
      rwa [map_map, hsame]
    rename_i hany
    rw [map_append, nodup_append]
    refine ⟨hnodup, nodup_singleton _, fun a ha b hb hab => ?_⟩
    obtain ⟨m, hm, rfl⟩ := mem_map.mp ha
    exact hany (any_eq_true.mpr ⟨m, hm, decide_eq_true (hab.trans (mem_singleton.mp hb))⟩)

theorem mergeMembers_of_get
    (h : ∀ m ∈ updates, ∃ new, (Value.object members).get m.1 = some new ∧ mergeValue new m.2 = new) :
    mergeMembers members updates = members := by
  induction updates with
  | nil => rw [mergeMembers]
  | cons update updates ih =>
    obtain ⟨⟨new, hget, hnew⟩, hrest⟩ := forall_mem_cons.mp h
    rw [mergeMembers, mergeMember_eq, hget, patched, Option.elim_some, hnew, insertMember_of_get hnodup hget]
    exact ih hrest

end

/-- A patch that was merged is merged again without effect. By induction on the patch, whatever it is merged
into. -/
theorem Distinct.mergeValue_again (h : value.Distinct) : ∀ existing : Value, existing.Distinct →
    mergeValue (mergeValue existing value) value = mergeValue existing value := by
  induction h with
  | leaf hleaf =>
    intro existing _
    rw [mergeValue_leaf hleaf, mergeValue_leaf hleaf]
  | @object updates hnodup _ ih =>
    intro existing hexisting
    have hself : ∀ m ∈ updates, mergeValue m.2 m.2 = m.2 := fun m hm => by
      have hagain := ih m hm .null (.leaf nofun)
      rwa [mergeValue_null] at hagain
    cases hexisting with
    | @object members hmembers hdistinct =>
      refine congrArg Value.object (mergeMembers_of_get (nodup_mergeMembers hmembers updates) fun m hm => ?_)
      rw [get_mergeMembers hnodup, get_of_mem hnodup hm]
      refine ⟨_, rfl, ?_⟩
      cases hget : (Value.object members).get m.1 with
      | none => exact hself m hm
      | some old => exact ih m hm old (hdistinct _ (mem_of_get_object hget))
    | leaf hleaf =>
      have hmerged : mergeValue existing (.object updates) = .object updates := by
        cases existing with
        | object members => exact absurd rfl (hleaf members)
        | null | bool | number | string | array => rfl
      rw [hmerged]
      exact congrArg Value.object (mergeMembers_of_get hnodup fun m hm => ⟨m.2, get_of_mem hnodup hm, hself m hm⟩)

end Value

/-- **Updates are deep merges.** Merging a patch into a document leaves every path that the patch does not
name as it was, puts every leaf of the patch at its path, and merging the patch once more changes nothing.
An empty object of the patch is no leaf. -/
theorem mergeSource_deep (members updates : List (String × Value)) (hdocument : (Value.object members).Distinct)
    (hpatch : (Value.object updates).Distinct) :
    ∃ merged, (Value.object members).mergeSource (.object updates) = some merged ∧
      (∀ path, (Value.object updates).Misses path → merged.getPath path = (Value.object members).getPath path) ∧
      (∀ path leaf, (Value.object updates).getPath path = some leaf → (∀ members, leaf ≠ .object members) →
        merged.getPath path = some leaf) ∧
      merged.mergeSource (.object updates) = some merged := by
  refine ⟨_, rfl, fun path => ?_, fun path => ?_, congrArg some (hpatch.mergeValue_again _ hdocument)⟩
  · exact (Value.getPath_mergeValue (.object members) hpatch).1
  · exact (Value.getPath_mergeValue (.object members) hpatch).2

theorem Value.Distinct.single {value : Value} (key : String) (h : value.Distinct) :
    (Value.object [(key, value)]).Distinct :=
  .object (nodup_singleton key) (by simpa using h)

/-- A nested member stays beside the one that the patch names. -/
theorem mergeSource_deep_nested : ∃ merged, (Value.object [("a", .object [("x", .bool true)])]).mergeSource
        (.object [("a", .object [("y", .null)])]) = some merged ∧
      merged.getPath ["a", "x"] = some (.bool true) ∧ merged.getPath ["a", "y"] = some .null := by
  have hdocument : (Value.bool true).Distinct := .leaf nofun
  have hpatch : Value.null.Distinct := .leaf nofun
  obtain ⟨merged, hmerged, hkept, hleaves, -⟩ := mergeSource_deep _ _ ((hdocument.single "x").single "a")
    ((hpatch.single "y").single "a")
  exact ⟨merged, hmerged, hkept ["a", "x"] (by simp [Value.Misses, Value.get]), hleaves ["a", "y"] .null rfl nofun⟩

/-! ### Columns of a document -/

/-- The keys down to a leaf, the last one apart. -/
abbrev LeafPath := List String × String

def LeafPath.columnName (path : LeafPath) : String := path.1.foldr (fun key name => key ++ "_" ++ name) path.2

namespace Value

variable {members : List (String × Value)}

mutual

/-- The leaves that are stored. -/
def leafMembers : List (String × Value) → List (LeafPath × Value)
  | [] => []
  | member :: members => leafMember member ++ leafMembers members

def leafMember : String × Value → List (LeafPath × Value)
  | (key, .object members) => (leafMembers members).map fun leaf => ((key :: leaf.1.1, leaf.1.2), leaf.2)
  | (_, .array _) | (_, .null) => []
  | (key, .bool b) => [(([], key), .bool b)]
  | (key, .number n) => [(([], key), .number n)]
  | (key, .string s) => [(([], key), .string s)]

end

theorem leafMembers_eq_flatMap (members : List (String × Value)) : leafMembers members = members.flatMap leafMember := by
  induction members with
  | nil => rw [leafMembers, flatMap_nil]
  | cons member members ih => rw [leafMembers, ih, flatMap_cons]

theorem head_leafMember {m : String × Value} {leaf : LeafPath × Value} (h : leaf ∈ leafMember m) :
    (leaf.1.1 ++ [leaf.1.2]).head? = some m.1 := by
  obtain ⟨key, value⟩ := m
  cases value with
  | object members =>
    rw [leafMember] at h
    obtain ⟨_, -, rfl⟩ := mem_map.mp h
    rfl
  | null | array =>
    rw [leafMember] at h
    cases h
  | bool | number | string =>
    rw [leafMember] at h
    rw [mem_singleton.mp h]
    rfl

theorem nodup_leafMembers (hnodup : (members.map Prod.fst).Nodup)
    (h : ∀ m ∈ members, ((leafMember m).map Prod.fst).Nodup) : ((leafMembers members).map Prod.fst).Nodup := by
  rw [leafMembers_eq_flatMap, map_flatMap, nodup_flatMap]
  refine ⟨h, (pairwise_map.mp hnodup).imp fun {m m'} hne path hpath hpath' => hne ?_⟩
  obtain ⟨leaf, hleaf, rfl⟩ := mem_map.mp hpath
  obtain ⟨leaf', hleaf', heq⟩ := mem_map.mp hpath'
  have hhead := head_leafMember hleaf'
  rw [heq, head_leafMember hleaf] at hhead
  exact Option.some.inj hhead

theorem denormalizeMembers_eq {path : String} (h : ∀ m ∈ members, denormalizeMember path m =
      (leafMember m).map fun leaf => (path ++ leaf.1.columnName, leaf.2)) :
    denormalizeMembers path members = (leafMembers members).map fun leaf => (path ++ leaf.1.columnName, leaf.2) := by
  rw [denormalizeMembers_eq_flatMap, leafMembers_eq_flatMap, map_flatMap]
  exact flatMap_congr h

/-- **The columns of a document** are its leaves under their joined paths, and different leaves have different
paths. -/
theorem Distinct.leafMember_spec {value : Value} (h : value.Distinct) (path key : String) :
    denormalizeMember path (key, value) =
        (leafMember (key, value)).map (fun leaf => (path ++ leaf.1.columnName, leaf.2)) ∧
      ((leafMember (key, value)).map Prod.fst).Nodup := by
  induction h generalizing path key with
  | leaf hleaf =>
    rename_i value
    cases value with
    | object members => exact absurd rfl (hleaf members)
    | null | array =>
      rw [denormalizeMember, leafMember]
      exact ⟨rfl, nodup_nil⟩
    | bool | number | string =>
      rw [denormalizeMember, leafMember]
      exact ⟨rfl, nodup_singleton _⟩
  | object hnodup _ ih =>
    rw [denormalizeMember, leafMember, denormalizeMembers_eq fun m hm => (ih m hm _ m.1).1, map_map, map_map]
    refine ⟨map_congr_left fun leaf _ => ?_, ?_⟩
    · simp [LeafPath.columnName, String.append_assoc]
    have hinj : Function.Injective fun path : LeafPath => ((key :: path.1, path.2) : LeafPath) := by
      rintro ⟨_, _⟩ ⟨_, _⟩ heq
      simpa using heq
    have hmap := (nodup_leafMembers hnodup fun m hm => (ih m hm path m.1).2).map hinj
    rwa [map_map] at hmap

end Value

/-- **Records of documents.** A record has what the engine assigned, and every leaf in a column of its own,
exactly if the joined paths of different leaves differ and no leaf brings another content for a column of the
engine. Nulls and arrays are no leaves. -/
theorem normalized_iff (id : String) (version seqNo : Nat) (members : List (String × Value)) (status : Option Nat)
    (hdocument : (Value.object members).Distinct) :
    let r := RecordInput.new id version (.object members) status
    ∃ columns record, r.source.createDenormalizedValue = some columns ∧ r.normalized seqNo = some record ∧
      ((∀ own ∈ r.ownCells seqNo, record.lookup own.1 = some own.2) ∧
        (∀ leaf ∈ Value.leafMembers members, record.lookup leaf.1.columnName = some (.cell leaf.2)) ∧
        (columns.map Prod.fst).Nodup ↔
        (∀ leaf ∈ Value.leafMembers members, ∀ other ∈ Value.leafMembers members,
          leaf.1.columnName = other.1.columnName → leaf.1 = other.1) ∧
        ∀ leaf ∈ Value.leafMembers members, ∀ own ∈ r.ownCells seqNo, leaf.1.columnName = own.1 →
          Column.cell leaf.2 = own.2) := by
  intro r
  cases hdocument with
  | leaf hleaf => exact absurd rfl (hleaf members)
  | object hnodup hmembers =>
    have hcolumns := Value.denormalizeMembers_eq fun m hm => ((hmembers m hm).leafMember_spec "" m.1).1
    have hpaths := Value.nodup_leafMembers hnodup fun m hm => ((hmembers m hm).leafMember_spec "" m.1).2
    refine ⟨_, _, rfl, rfl, ?_⟩
    have hnames : ((Value.denormalizeMembers "" members).map Prod.fst).Nodup ↔
        ∀ leaf ∈ Value.leafMembers members, ∀ other ∈ Value.leafMembers members,
          leaf.1.columnName = other.1.columnName → leaf.1 = other.1 := by
      have hmap : (Value.denormalizeMembers "" members).map Prod.fst =
          ((Value.leafMembers members).map Prod.fst).map LeafPath.columnName := by
        simp [hcolumns, Function.comp_def]
      rw [hmap, nodup_map_iff_inj_on hpaths]
      simp only [forall_mem_map]
    rw [← hnames, ← and_assoc, and_comm]
    refine and_congr_right fun hdistinct => ?_
    let cells := (Value.denormalizeMembers "" members).map fun c => (c.1, Column.cell c.2)
    have hcells : (cells.map Prod.fst).Nodup := by
      rw [map_map]
      exact hdistinct
    have hown : ((r.ownCells seqNo).map Prod.fst).Nodup := (by decide : Value.ownColumns.Nodup)
    have hlookup : ∀ name, (Dict.insertAll ∅ (r.ownCells seqNo ++ cells)).lookup name =
        (cells.lookup name).or ((r.ownCells seqNo).lookup name) := by
      intro name
      rw [Dict.insertAll, foldl_append]
      exact (lookup_insertAll hcells _ name).trans (congrArg _ (lookup_insertAll_empty hown name))
    have hcell : ∀ leaf ∈ Value.leafMembers members, cells.lookup leaf.1.columnName = some (.cell leaf.2) := by
      intro leaf hleaf
      have hmem : (leaf.1.columnName, Column.cell leaf.2) ∈ cells := by
        simp only [cells, hcolumns, map_map]
        exact mem_map.mpr ⟨leaf, hleaf, by simp⟩
      exact lookup_eq_some_of_mem hcells hmem
    constructor
    · rintro ⟨hkept, -⟩ leaf hleaf own hmem hname
      have hown' := (hlookup own.1).symm.trans (hkept own hmem)
      rw [← hname, hcell leaf hleaf] at hown'
      exact Option.some.inj hown'
    intro hclash
    refine ⟨fun own hmem => (hlookup own.1).trans ?_, fun leaf hleaf => (hlookup _).trans ?_⟩
    · rw [lookup_eq_some_of_mem hown hmem]
      by_cases hin : own.1 ∈ cells.map Prod.fst
      · simp only [cells, hcolumns, map_map] at hin
        obtain ⟨leaf, hleaf, hname⟩ := mem_map.mp hin
        have hname' : leaf.1.columnName = own.1 := by simpa using hname
        rw [← hname', hcell leaf hleaf, hclash leaf hleaf own hmem hname']
        rfl
      · rw [lookup_eq_none_of_notMem hin]
        rfl
    · rw [hcell leaf hleaf]
      rfl

/-- Nested members have their own columns. -/
theorem normalized_iff_nested :
    let r := RecordInput.new "1" 1 (.object [("flag", .bool true), ("size", .object [("w", .int 2), ("h", .int 3)])]) none
    ∃ record, r.normalized 7 = some record ∧ (∀ own ∈ r.ownCells 7, record.lookup own.1 = some own.2) ∧
      record.lookup "flag" = some (.cell (.bool true)) ∧ record.lookup "size_w" = some (.cell (.int 2)) ∧
      record.lookup "size_h" = some (.cell (.int 3)) := by
  have hsize : (Value.object [("w", .int 2), ("h", .int 3)]).Distinct :=
    .object (by decide) (by simpa using ⟨.leaf nofun, .leaf nofun⟩)
  have hdocument : (Value.object [("flag", .bool true), ("size", .object [("w", .int 2), ("h", .int 3)])]).Distinct :=
    .object (by decide) (by simpa using ⟨.leaf nofun, hsize⟩)
  obtain ⟨_, record, -, hrecord, hiff⟩ := normalized_iff "1" 1 7 _ none hdocument
  obtain ⟨hown, hleaves, -⟩ := hiff.mpr ⟨by decide +kernel, by decide +kernel⟩
  exact ⟨record, hrecord, hown, hleaves (([], "flag"), .bool true) (by decide +kernel),
    hleaves ((["size"], "w"), .int 2) (by decide +kernel), hleaves ((["size"], "h"), .int 3) (by decide +kernel)⟩

/-- **A forged id, and a lost leaf.** A member `_id` of a document takes the place of the record's id, and the
members `a_b` and `a.b` have one column. -/
theorem normalized_forged :
    ((RecordInput.new "1" 1 (.object [("_id", .string "2")]) none).normalized 7).bind (·.text "_id") = some "2" ∧
      (Value.object [("a_b", .bool true), ("a", .object [("b", .bool false)])]).createDenormalizedValue =
        some [("a_b", .bool true), ("a_b", .bool false)] :=
  ⟨by decide +kernel, by decide +kernel⟩

end PowdrrEngine
