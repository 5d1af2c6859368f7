import PowdrrEngine.ContractSchema
import PowdrrEngine.LibList
import Mathlib.Order.Bounds.Image

/-! Merging schemas. A column starts as null and grows to a list or a plain type; a merge gives every column the
longer growth of the two, and stops where neither is a part of the other. So a merge is the join of its parts, up to
the order of fields. -/

namespace PowdrrEngine

open List Lists Function
open Option (map_eq_some_iff isSome_map isSome_iff_exists bind_eq_some_iff)

namespace PowdrrDataType

/-- A type that is neither a record nor a list. -/
def isPlain : PowdrrDataType → Bool
  | .object _ | .array _ => false
  | _ => true

/-- The columns inside of a record, or of the records of a list. -/
def nested : PowdrrDataType → PowdrrSchema
  | .object schema | .array (.object schema) => schema
  | _ => .minimal

def withNested : PowdrrDataType → PowdrrSchema → PowdrrDataType
  | .object _ => .object
  | .array (.object _) => fun schema => .array (.object schema)
  | t => fun _ => t

/-- The types that a column goes through to this one, with no columns inside. -/
def growth : PowdrrDataType → List PowdrrDataType
  | .null => [.null]
  | .array .null => [.null, .array .null]
  | .array t => [.null, .array .null, (array t).withNested .minimal]
  | t => [.null, t.withNested .minimal]

theorem sizeOf_nested (t : PowdrrDataType) : sizeOf t.nested.fields ≤ sizeOf t := by
  unfold nested
  split
  · rename_i schema
    cases schema
    simp
    omega
  · rename_i schema
    cases schema
    simp
    omega
  · cases t <;> simp [PowdrrSchema.minimal]

theorem induction {motive : PowdrrDataType → Prop}
    (h : ∀ t : PowdrrDataType, (∀ field ∈ t.nested.fields, motive field.dataType) → motive t) (t : PowdrrDataType) :
    motive t :=
  h t fun field _ => induction h field.dataType
termination_by sizeOf t
decreasing_by
  have hle := t.sizeOf_nested
  have hlt : sizeOf field < sizeOf t.nested.fields := sizeOf_lt_of_mem (by assumption)
  cases field
  simp at hlt ⊢
  omega

end PowdrrDataType

namespace PowdrrSchema

open PowdrrDataType

variable {a b c t : PowdrrDataType} {schema : PowdrrSchema}

/-- The type of a column after a merge. -/
def joinType (self other : PowdrrDataType) : Option PowdrrDataType := (mergeDataType self other).map (·.getD self)

@[simp] theorem mergeFrom_nil : ∀ schema : PowdrrSchema, schema.mergeFrom minimal = some schema
  | ⟨fields⟩ => by rw [minimal, mergeFrom, mergeFields, Option.map_some]

/-- Of two types one has to be on the way to the other, which the column gets. -/
theorem joinType_eq (a b : PowdrrDataType) :
    joinType a b = if a.growth <+: b.growth then (mergeFrom a.nested b.nested).map b.withNested
      else if b.growth <+: a.growth then (mergeFrom a.nested b.nested).map a.withNested else none := by
  cases a with
  | array x =>
    cases b with
    | array y =>
      cases x <;> cases y <;>
        simp [joinType, mergeDataType, mergeElementType, mergePlainType, growth, nested, withNested, comp_def]
      grind
    | _ => cases x <;> simp [joinType, mergeDataType, mergePlainType, growth, nested, withNested]
  | _ =>
    cases b with
    | array y =>
      cases y <;> simp [joinType, mergeDataType, mergePlainType, growth, nested, withNested]
    | _ => simp [joinType, mergeDataType, mergePlainType, growth, nested, withNested, comp_def]

/-! ### Columns by name -/

section

variable {schema self other merged : PowdrrSchema} {field new own : PowdrrField} {fields acc others : List PowdrrField}
  {name : String}

def names (schema : PowdrrSchema) : List String := schema.fields.map (·.name)

theorem mem_names_of_mem (h : field ∈ schema.fields) : field.name ∈ schema.names := mem_map_of_mem h

/-- The type of the column of a name. -/
def typeAt (fields : List PowdrrField) (name : String) : Option PowdrrDataType :=
  (fields.find? (·.name = name)).map (·.dataType)

theorem typeAt_cons : typeAt (field :: fields) name =
    if field.name = name then some field.dataType else typeAt fields name := by
  by_cases h : field.name = name <;> simp [typeAt, h]

theorem typeAt_eq_none : typeAt fields name = none ↔ name ∉ fields.map (·.name) := by
  simp [typeAt]

theorem mem_names_iff : name ∈ schema.names ↔ ∃ t, typeAt schema.fields name = some t := by
  rw [← not_iff_not, names, ← typeAt_eq_none, Option.eq_none_iff_forall_ne_some, not_exists]

theorem typeAt_eq_some (h : (fields.map (·.name)).Nodup) : typeAt fields name = some t ↔ ⟨name, t⟩ ∈ fields := by
  simp only [typeAt, map_eq_some_iff, find?_eq_some_of_nodup h]
  constructor
  · rintro ⟨⟨_, _⟩, ⟨hmem, rfl⟩, rfl⟩
    exact hmem
  · exact fun hmem => ⟨_, ⟨hmem, rfl⟩, rfl⟩

theorem toMapGet_eq_some (h : schema.names.Nodup) :
    schema.toMapGet name = some field ↔ field ∈ schema.fields ∧ field.name = name := by
  rw [toMapGet, find?_eq_some_of_nodup (by rwa [map_reverse, nodup_reverse]), mem_reverse]

theorem setField_eq_map (h : (fields.map (·.name)).Nodup) (field : PowdrrField) :
    setField fields field = fields.map fun f => if f.name = field.name then field else f := by
  induction fields with
  | nil => rfl
  | cons first fields ih =>
    rw [map_cons, nodup_cons] at h
    unfold setField
    rw [map_cons]
    split
    · rename_i heq
      have hrest : ∀ f ∈ fields, (if f.name = field.name then field else f) = f := by
        intro f hf
        refine if_neg fun hname => h.1 ?_
        rw [heq, ← hname]
        exact mem_map_of_mem hf
      rw [map_congr_left hrest, map_id']
    · rw [ih h.2]

/-! ### One merge -/

/-- The type of a name after a merge. -/
def joinAt : Option PowdrrDataType → Option PowdrrDataType → Option PowdrrDataType
  | some self, some other => joinType self other
  | some self, none => some self
  | none, other => other

/-- What becomes of a field when another schema is merged into its own. -/
def joinField (others : List PowdrrField) (field : PowdrrField) : Option PowdrrField :=
  (joinAt (some field.dataType) (typeAt others field.name)).map (PowdrrField.mk field.name)

theorem joinField_cons : joinField (new :: others) field =
    if new.name = field.name then (joinType field.dataType new.dataType).map (PowdrrField.mk field.name)
      else joinField others field := by
  by_cases h : new.name = field.name <;> simp [joinField, joinAt, typeAt_cons, h]

theorem mergeFields_cons (hacc : (acc.map (·.name)).Nodup) (hget : self.toMapGet new.name = some own)
    (hown : own ∈ acc) (hname : own.name = new.name) :
    mergeFields self acc (new :: others) = (joinType own.dataType new.dataType).bind fun t =>
      mergeFields self (acc.map fun f => if f.name = new.name then ⟨new.name, t⟩ else f) others := by
  obtain ⟨newName, newType⟩ := new
  obtain ⟨ownName, ownType⟩ := own
  obtain rfl : ownName = newName := hname
  rw [mergeFields, hget]
  simp only [mergeField, joinType]
  cases mergeDataType ownType newType with
  | none => rfl
  | some merged =>
    cases merged with
    | some merged => simp [setField_eq_map hacc]
    | none =>
      have hsame : ∀ f ∈ acc, (if f.name = ownName then ⟨ownName, ownType⟩ else f) = f := by
        intro f hf
        split
        · rename_i hfname
          exact (inj_on_of_nodup_map hacc hf hown hfname).symm
        · rfl
      simp [map_congr_left hsame]

theorem joinField_of_notMem (h : field.name ∉ others.map (·.name)) : joinField others field = some field := by
  rw [joinField, typeAt_eq_none.mpr h]
  cases field
  rfl

theorem mergeFields_eq (hacc : (acc.map (·.name)).Nodup) (hothers : (others.map (·.name)).Nodup)
    (hsame : ∀ new ∈ others, ∀ f, self.toMapGet new.name = some f ↔ f ∈ acc ∧ f.name = new.name) :
    mergeFields self acc others = (acc.mapM (joinField others)).map fun fields =>
      fields ++ others.filter (·.name ∉ acc.map (·.name)) := by
  induction others generalizing acc with
  | nil =>
    have hfields : acc.mapM (joinField []) = some (acc.map id) := mapM_eq_map fun f _ => joinField_of_notMem not_mem_nil
    simp [mergeFields, hfields]
  | cons new others ih =>
    rw [map_cons, nodup_cons] at hothers
    have hnew := hsame new mem_cons_self
    have hne : ∀ o ∈ others, new.name ≠ o.name := fun o ho heq => hothers.1 (heq ▸ mem_map_of_mem ho)
    cases hget : self.toMapGet new.name with
    | none =>
      have hnot : ∀ f ∈ acc, new.name ≠ f.name := fun f hf heq => by
        cases hget.symm.trans ((hnew f).mpr ⟨hf, heq.symm⟩)
      have hfields : acc.mapM (joinField (new :: others)) = acc.mapM (joinField others) :=
        mapM_congr_left fun f hf => by rw [joinField_cons, if_neg (hnot f hf)]
      rw [mergeFields, hget]
      dsimp only
      rw [ih _ hothers.2, mapM_append, hfields]
      · have hlast : joinField others new = some new := joinField_of_notMem hothers.1
        have hrest : others.filter (·.name ∉ (acc ++ [new]).map (·.name)) =
            others.filter (·.name ∉ acc.map (·.name)) := filter_congr fun o ho => by grind
        rw [hrest, filter_cons_of_pos (by grind)]
        cases acc.mapM (joinField others) <;> simp [hlast]
      · grind
      · rw [map_append, map_singleton]
        exact hacc.append (nodup_singleton _) (by simpa using fun f hf => (hnot f hf).symm)
    | some own =>
      obtain ⟨hown, hname⟩ := (hnew own).mp hget
      rw [mergeFields_cons hacc hget hown hname]
      cases hjoin : joinType own.dataType new.dataType with
      | none =>
        have hstop : joinField (new :: others) own = none := by simp [joinField_cons, hname, hjoin]
        rw [mapM_eq_none hown hstop]
        rfl
      | some t =>
        have hnames : (acc.map fun f => if f.name = new.name then ⟨new.name, t⟩ else f).map (·.name) =
            acc.map (·.name) := by
          rw [map_map]
          exact map_congr_left fun f _ => by grind
        rw [Option.bind_some, ih (hnames ▸ hacc) hothers.2, mapM_map, hnames]
        · rw [filter_cons_of_neg (by grind)]
          refine congrArg _ (mapM_congr_left fun f hf => ?_)
          rw [comp_apply, joinField_cons]
          split
          · rename_i hfname
            rw [inj_on_of_nodup_map hacc hf hown (hfname.trans hname.symm), if_pos hname.symm, hjoin, hname]
            exact joinField_of_notMem hothers.1
          · rw [if_neg (by grind)]
        · grind

/-- **A merge in closed form.** The own fields take in those of their name, and the other incoming ones come after
them. -/
theorem mergeFrom_eq (hself : self.names.Nodup) (hother : other.names.Nodup) :
    mergeFrom self other = (self.fields.mapM (joinField other.fields)).map fun fields =>
      ⟨fields ++ other.fields.filter (·.name ∉ self.names)⟩ := by
  obtain ⟨others⟩ := other
  rw [mergeFrom, mergeFields_eq hself hother fun new _ f => toMapGet_eq_some hself, Option.map_map]
  rfl

theorem names_mapM (h : fields.mapM (joinField others) = some acc) : acc.map (·.name) = fields.map (·.name) := by
  refine (map_eq_map_of_forall₂ ((forall₂_of_mapM h).imp fun f f' hf => ?_)).symm
  obtain ⟨t, -, rfl⟩ := map_eq_some_iff.mp hf
  rfl

theorem typeAt_append (front back : List PowdrrField) :
    typeAt (front ++ back) name = (typeAt front name).or (typeAt back name) := by
  simp only [typeAt, find?_append]
  cases (front.find? fun f => f.name = name) <;> rfl

theorem typeAt_mapM (h : fields.mapM (joinField others) = some acc) :
    typeAt acc name = (typeAt fields name).bind fun t => joinAt (some t) (typeAt others name) := by
  induction fields generalizing acc with
  | nil =>
    cases h
    rfl
  | cons f fields ih =>
    simp only [mapM_cons, Option.bind_eq_bind, bind_eq_some_iff] at h
    obtain ⟨f', hf, acc', hacc, hacc'⟩ := h
    cases hacc'
    obtain ⟨t, ht, rfl⟩ := map_eq_some_iff.mp hf
    rw [typeAt_cons, typeAt_cons, ih hacc]
    split
    · subst name
      exact ht.symm
    · rfl

theorem names_mergeFrom (hself : self.names.Nodup) (hother : other.names.Nodup)
    (h : mergeFrom self other = some merged) : merged.names.Nodup ∧ self.names <+: merged.names := by
  rw [mergeFrom_eq hself hother] at h
  obtain ⟨fields, hfields, rfl⟩ := map_eq_some_iff.mp h
  rw [names, map_append, names_mapM hfields]
  refine ⟨hself.append (hother.sublist (filter_sublist.map _)) fun name hname hnew => ?_, prefix_append _ _⟩
  simp only [mem_map, mem_filter, decide_eq_true_eq] at hnew
  obtain ⟨new, ⟨-, hnot⟩, rfl⟩ := hnew
  exact hnot hname

theorem typeAt_filter (p : String → Bool) :
    typeAt (fields.filter fun f => p f.name) name = if p name then typeAt fields name else none := by
  induction fields with
  | nil => simp [typeAt]
  | cons f fields ih =>
    rw [filter_cons]
    split <;> grind [typeAt_cons]

theorem typeAt_mergeFrom (hself : self.names.Nodup) (hother : other.names.Nodup)
    (h : mergeFrom self other = some merged) (name : String) :
    typeAt merged.fields name = joinAt (typeAt self.fields name) (typeAt other.fields name) := by
  rw [mergeFrom_eq hself hother] at h
  obtain ⟨fields, hfields, rfl⟩ := map_eq_some_iff.mp h
  rw [typeAt_append, typeAt_mapM hfields, typeAt_filter fun name => name ∉ self.names]
  cases hown : typeAt self.fields name with
  | none => simp [names, typeAt_eq_none.mp hown, joinAt]
  | some t =>
    have hin : name ∈ self.names := mem_names_iff.mpr ⟨t, hown⟩
    simp [hin]

theorem isSome_mergeFrom (hself : self.names.Nodup) (hother : other.names.Nodup) : (mergeFrom self other).isSome ↔
      ∀ field ∈ self.fields, (joinAt (some field.dataType) (typeAt other.fields field.name)).isSome := by
  simp [mergeFrom_eq hself hother, isSome_mapM, joinField]

end

/-! ### All columns -/

theorem growth_withNested (t : PowdrrDataType) (schema : PowdrrSchema) : (t.withNested schema).growth = t.growth := by
  cases t with
  | array u => cases u <;> rfl
  | _ => rfl

theorem nested_withNested (h : a.growth <+: b.growth) (schema : PowdrrSchema) : (b.withNested schema).nested = schema ∨
    a.nested = minimal ∧ b.nested = minimal ∧ (b.withNested schema).nested = minimal := by
  cases b with
  | object => exact Or.inl rfl
  | array y =>
    cases y with
    | object => exact Or.inl rfl
    | _ => cases a with
      | array x => cases x <;> simp_all [growth, nested, withNested]
      | _ => simp_all [growth, nested, withNested]
  | _ => cases a with
    | array x => cases x <;> simp_all [growth, withNested]
    | _ => simp_all [growth, nested, withNested]

/-- The types that a column goes through. -/
def Growth : Type := List PowdrrDataType

instance : PartialOrder Growth where
  le front back := front.IsPrefix back
  le_refl := prefix_refl
  le_trans _ _ _ := IsPrefix.trans
  le_antisymm _ _ h h' := h.eq_of_length_le h'.length_le

instance : OrderBot Growth where
  bot := ([] : List PowdrrDataType)
  bot_le _ := nil_prefix

/-- The types of the columns inside, by path. -/
def columns (t : PowdrrDataType) : List String → Growth
  | [] => t.growth
  | name :: path => ((typeAt t.nested.fields name).map fun u => columns u path).getD ⊥

theorem isGreatest_of_le {front back : Growth} (h : front ≤ back) : IsGreatest {front, back} back :=
  ⟨Or.inr rfl, by simpa using h⟩

theorem joinType_eq_some (h : joinType a b = some c) :
    IsGreatest {columns a [], columns b []} (columns c []) ∧ mergeFrom a.nested b.nested = some c.nested := by
  rw [joinType_eq] at h
  split_ifs at h with hle hle'
  · obtain ⟨schema, hmerge, rfl⟩ := map_eq_some_iff.mp h
    rw [show columns (b.withNested schema) [] = columns b [] from growth_withNested b schema]
    refine ⟨isGreatest_of_le hle, ?_⟩
    rcases nested_withNested hle schema with hnested | ⟨ha, hb, hnested⟩
    · rw [hnested, hmerge]
    · rw [ha, hb, hnested, mergeFrom_nil]
  obtain ⟨schema, hmerge, rfl⟩ := map_eq_some_iff.mp h
  rw [show columns (a.withNested schema) [] = columns a [] from growth_withNested a schema]
  refine ⟨Set.pair_comm _ _ ▸ isGreatest_of_le hle', ?_⟩
  rcases nested_withNested hle' schema with hnested | ⟨hb, ha, hnested⟩
  · rw [hnested, hmerge]
  · rw [ha, hb, hnested, mergeFrom_nil]

theorem distinct_iff : schema.Distinct ↔ schema.names.Nodup ∧ ∀ field ∈ schema.fields, DistinctType field.dataType := by
  have hfields : ∀ fields, DistinctFields fields ↔ ∀ field ∈ fields, DistinctType field.dataType := by
    intro fields
    induction fields with
    | nil => simp [DistinctFields]
    | cons field fields ih =>
      cases field
      simp [DistinctFields, DistinctField, ih]
  obtain ⟨fields⟩ := schema
  rw [Distinct, hfields]
  rfl

theorem distinct_nested (h : DistinctType a) : a.nested.Distinct := by
  unfold nested
  split
  · exact h
  · exact h
  · exact ⟨nodup_nil, trivial⟩

theorem nodup_nested (h : DistinctType a) : a.nested.names.Nodup := (distinct_iff.mp (distinct_nested h)).1

theorem distinct_typeAt {name : String} (h : DistinctType a) (ht : typeAt a.nested.fields name = some t) : DistinctType t :=
  (distinct_iff.mp (distinct_nested h)).2 _ ((typeAt_eq_some (nodup_nested h)).mp ht)

theorem distinct_withNested (h : DistinctType a) (hschema : schema.Distinct) : DistinctType (a.withNested schema) := by
  unfold withNested
  split
  · exact hschema
  · exact hschema
  · exact h

section

variable (ha : a.nested.names.Nodup) (hb : b.nested.names.Nodup) (h : joinType a b = some c) {name : String}

include ha hb h

theorem typeAt_joinType (name : String) :
    typeAt c.nested.fields name = joinAt (typeAt a.nested.fields name) (typeAt b.nested.fields name) :=
  typeAt_mergeFrom ha hb (joinType_eq_some h).2 name

theorem exists_joinAt (ht : typeAt a.nested.fields name = some t) :
    ∃ u, joinAt (some t) (typeAt b.nested.fields name) = some u := by
  have hsome := (isSome_mergeFrom ha hb).mp (isSome_iff_exists.mpr ⟨_, (joinType_eq_some h).2⟩) _
    ((typeAt_eq_some ha).mp ht)
  exact isSome_iff_exists.mp hsome

theorem isGreatest_cons {path : List String}
    (hpath : ∀ t u v, typeAt a.nested.fields name = some t → typeAt b.nested.fields name = some u →
      joinType t u = some v → IsGreatest {columns t path, columns u path} (columns v path)) :
    IsGreatest {columns a (name :: path), columns b (name :: path)} (columns c (name :: path)) := by
  unfold columns
  rw [typeAt_joinType ha hb h name]
  cases ht : typeAt a.nested.fields name with
  | none => exact isGreatest_of_le bot_le
  | some t =>
    cases hu : typeAt b.nested.fields name with
    | none => exact Set.pair_comm _ _ ▸ isGreatest_of_le bot_le
    | some u =>
      obtain ⟨v, hv⟩ := exists_joinAt ha hb h ht
      rw [hu] at hv
      rw [hv]
      exact hpath t u v ht hu hv

end

theorem isGreatest_columns (ha : DistinctType a) (hb : DistinctType b) (h : joinType a b = some c)
    (path : List String) : IsGreatest {columns a path, columns b path} (columns c path) := by
  induction path generalizing a b c with
  | nil => exact (joinType_eq_some h).1
  | cons name path ih =>
    exact isGreatest_cons (nodup_nested ha) (nodup_nested hb) h fun t u v ht hu hv =>
      ih (distinct_typeAt ha ht) (distinct_typeAt hb hu) hv

theorem distinct_joinType (ha : DistinctType a) (hb : DistinctType b) (h : joinType a b = some c) : DistinctType c := by
  induction b using PowdrrDataType.induction generalizing a c with
  | h b ih =>
    have hmerge := (joinType_eq_some h).2
    have hnodup := (names_mergeFrom (nodup_nested ha) (nodup_nested hb) hmerge).1
    have hnested : c.nested.Distinct := by
      refine distinct_iff.mpr ⟨hnodup, fun ⟨name, dataType⟩ hfield => ?_⟩
      have hname := typeAt_joinType (nodup_nested ha) (nodup_nested hb) h name
      rw [(typeAt_eq_some hnodup).mpr hfield] at hname
      cases ht : typeAt a.nested.fields name with
      | none =>
        rw [ht] at hname
        exact distinct_typeAt hb hname.symm
      | some t =>
        cases hu : typeAt b.nested.fields name with
        | none =>
          rw [ht, hu] at hname
          exact Option.some.inj hname ▸ distinct_typeAt ha ht
        | some u =>
          rw [ht, hu] at hname
          exact ih _ ((typeAt_eq_some (nodup_nested hb)).mp hu) (distinct_typeAt ha ht) (distinct_typeAt hb hu) hname.symm
    rw [joinType_eq, hmerge] at h
    split_ifs at h
    · exact Option.some.inj h ▸ distinct_withNested hb hnested
    · exact Option.some.inj h ▸ distinct_withNested ha hnested

theorem isSome_joinType (ha : DistinctType a) (hb : DistinctType b)
    (h : ∀ path, columns a path ≤ columns b path ∨ columns b path ≤ columns a path) : (joinType a b).isSome := by
  induction b using PowdrrDataType.induction generalizing a with
  | h b ih =>
    have hnested : (mergeFrom a.nested b.nested).isSome := by
      refine (isSome_mergeFrom (nodup_nested ha) (nodup_nested hb)).mpr fun ⟨name, t⟩ hfield => ?_
      have ht := (typeAt_eq_some (nodup_nested ha)).mpr hfield
      cases hu : typeAt b.nested.fields name with
      | none => rfl
      | some u =>
        refine ih _ ((typeAt_eq_some (nodup_nested hb)).mp hu) (distinct_typeAt ha ht) (distinct_typeAt hb hu) fun path => ?_
        have hpath := h (name :: path)
        rwa [columns, columns, ht, hu] at hpath
    rw [joinType_eq]
    split_ifs with hle hle'
    · rwa [isSome_map]
    · rwa [isSome_map]
    · exact absurd (h []) (not_or.mpr ⟨hle, hle'⟩)

section

variable {self other merged : PowdrrSchema} (hself : self.Distinct) (hother : other.Distinct)
  {all : List String → Growth}

/-- The columns of a schema, up to the order of fields. -/
def allColumns (schema : PowdrrSchema) : List String → Growth := columns (.object schema)

theorem joinType_object : joinType (.object self) (.object other) = (mergeFrom self other).map .object := by
  simp [joinType, mergeDataType, comp_def]

include hself hother

theorem isLUB_mergeFrom (h : mergeFrom self other = some merged) :
    merged.Distinct ∧ IsLUB {self.allColumns, other.allColumns} merged.allColumns := by
  have hjoin : joinType (.object self) (.object other) = some (.object merged) := by rw [joinType_object, h]; rfl
  refine ⟨distinct_joinType (a := .object self) (b := .object other) hself hother hjoin, isLUB_pi.mpr fun path => ?_⟩
  rw [Set.image_pair]
  exact (isGreatest_columns (a := .object self) (b := .object other) hself hother hjoin path).isLUB

theorem exists_mergeFrom (h : BddAbove {self.allColumns, other.allColumns}) :
    ∃ merged, mergeFrom self other = some merged := by
  obtain ⟨bound, hbound⟩ := h
  have hsome := isSome_joinType (a := .object self) (b := .object other) hself hother fun path =>
    prefix_or_prefix_of_prefix (hbound (Or.inl rfl) path) (hbound (Or.inr rfl) path)
  rw [joinType_object, isSome_map] at hsome
  exact isSome_iff_exists.mp hsome

theorem map_mergeFrom :
    (mergeFrom self other).map allColumns = some all ↔ IsLUB {self.allColumns, other.allColumns} all := by
  constructor
  · intro h
    obtain ⟨merged, hmerged, rfl⟩ := map_eq_some_iff.mp h
    exact (isLUB_mergeFrom hself hother hmerged).2
  · intro h
    obtain ⟨merged, hmerged⟩ := exists_mergeFrom hself hother ⟨all, h.1⟩
    rw [hmerged, Option.map_some, (isLUB_mergeFrom hself hother hmerged).2.unique h]

theorem mergeFrom_comm : (mergeFrom self other).map allColumns = (mergeFrom other self).map allColumns := by
  refine Option.ext fun all => ?_
  rw [map_mergeFrom hself hother, map_mergeFrom hother hself, Set.pair_comm]

theorem map_mergeFrom_mergeFrom {third : PowdrrSchema} (hthird : third.Distinct) :
    (∃ merged, mergeFrom self other = some merged ∧ (mergeFrom merged third).map allColumns = some all) ↔
      IsLUB {self.allColumns, other.allColumns, third.allColumns} all := by
  have hassoc : ∀ {two}, IsLUB {self.allColumns, other.allColumns} two →
      (IsLUB {two, third.allColumns} all ↔ IsLUB {self.allColumns, other.allColumns, third.allColumns} all) := by
    intro two htwo
    refine isLUB_congr (Set.ext fun bound => ?_)
    simp [upperBounds, isLUB_le_iff htwo, and_assoc]
  constructor
  · rintro ⟨merged, hmerged, hall⟩
    obtain ⟨hdistinct, hlub⟩ := isLUB_mergeFrom hself hother hmerged
    exact (hassoc hlub).mp ((map_mergeFrom hdistinct hthird).mp hall)
  · intro h
    obtain ⟨merged, hmerged⟩ := exists_mergeFrom hself hother ⟨all, fun c hc => h.1 (by grind)⟩
    obtain ⟨hdistinct, hlub⟩ := isLUB_mergeFrom hself hother hmerged
    exact ⟨merged, hmerged, (map_mergeFrom hdistinct hthird).mpr ((hassoc hlub).mpr h)⟩

end

/-- Two types that differ by nulls, and by columns that one of them has alone. -/
inductive Compatible : PowdrrDataType → PowdrrDataType → Prop
  | nullLeft (t : PowdrrDataType) : Compatible .null t
  | nullRight (t : PowdrrDataType) : Compatible t .null
  | same (t : PowdrrDataType) : Compatible t t
  | array {a b : PowdrrDataType} (h : Compatible a b) : Compatible (.array a) (.array b)
  | object {a b : PowdrrSchema}
    (h : ∀ name t u, typeAt a.fields name = some t → typeAt b.fields name = some u → Compatible t u) :
    Compatible (.object a) (.object b)

/-- Where both have lists of lists, these have the same type. -/
def NestedAgree (a b : PowdrrDataType) : Prop :=
  ∀ path t u, columns a path = growth (.array (.array t)) → columns b path = growth (.array (.array u)) → t = u

section

variable {name : String} {u : PowdrrDataType} (ht : typeAt a.nested.fields name = some t)
  (hu : typeAt b.nested.fields name = some u)

include ht hu

theorem NestedAgree.nested (h : NestedAgree a b) : NestedAgree t u := by
  intro path x y hx hy
  exact h (name :: path) x y (by rw [columns, ht]; exact hx) (by rw [columns, hu]; exact hy)

theorem Compatible.nested (h : Compatible a b) : Compatible t u := by
  cases h with
  | nullLeft => cases ht
  | nullRight => cases hu
  | same => exact Option.some.inj (ht.symm.trans hu) ▸ .same t
  | object h => exact h name t u ht hu
  | array h =>
    cases h with
    | nullLeft => cases ht
    | nullRight => cases hu
    | same => exact Option.some.inj (ht.symm.trans hu) ▸ .same t
    | object h => exact h name t u ht hu
    | array => cases ht

end

theorem growth_null (t : PowdrrDataType) : growth .null <+: t.growth := by
  cases t with
  | array u => cases u <;> simp [growth]
  | _ => simp [growth]

theorem growth_array_null (t : PowdrrDataType) : growth (.array .null) <+: growth (.array t) := by
  cases t <;> simp [growth]

theorem Compatible.growth (h : Compatible a b) (hagree : NestedAgree a b) : a.growth <+: b.growth ∨ b.growth <+: a.growth := by
  cases h with
  | nullLeft => exact Or.inl (growth_null _)
  | nullRight => exact Or.inr (growth_null _)
  | same | object => exact Or.inl prefix_rfl
  | array h =>
    cases h with
    | nullLeft => exact Or.inl (growth_array_null _)
    | nullRight => exact Or.inr (growth_array_null _)
    | same | object => exact Or.inl prefix_rfl
    | array => exact Or.inl (hagree [] _ _ rfl rfl ▸ prefix_rfl)

theorem Compatible.le_or_le (h : Compatible a b) (hagree : NestedAgree a b) (path : List String) :
    columns a path ≤ columns b path ∨ columns b path ≤ columns a path := by
  induction path generalizing a b with
  | nil => exact h.growth hagree
  | cons name path ih =>
    unfold columns
    cases ht : typeAt a.nested.fields name with
    | none => exact Or.inl bot_le
    | some t =>
      cases hu : typeAt b.nested.fields name with
      | none => exact Or.inr bot_le
      | some u => exact ih (h.nested ht hu) (hagree.nested ht hu)

theorem mergeFrom_self_of (h : schema.names.Nodup)
    (hself : ∀ field ∈ schema.fields, joinType field.dataType field.dataType = some field.dataType) :
    mergeFrom schema schema = some schema := by
  have hfields : schema.fields.mapM (joinField schema.fields) = some (schema.fields.map id) := by
    refine mapM_eq_map fun ⟨name, t⟩ hfield => ?_
    rw [joinField, (typeAt_eq_some h).mpr hfield, joinAt, hself _ hfield]
    rfl
  rw [mergeFrom_eq h h, hfields]
  cases schema
  simp [names]
  grind

theorem joinType_self (h : DistinctType a) : joinType a a = some a := by
  induction a using PowdrrDataType.induction with
  | h a ih =>
    have hnested : mergeFrom a.nested a.nested = some a.nested := mergeFrom_self_of (nodup_nested h) fun field hfield =>
      ih field hfield ((distinct_iff.mp (distinct_nested h)).2 field hfield)
    rw [joinType_eq, if_pos prefix_rfl, hnested]
    unfold withNested nested
    split <;> rfl

theorem mergeFrom_self (h : schema.Distinct) : schema.mergeFrom schema = some schema :=
  mergeFrom_self_of (distinct_iff.mp h).1 fun field hfield => joinType_self ((distinct_iff.mp h).2 field hfield)

/-- **Merging is a join.** -/
theorem mergeFrom_join {a b c : PowdrrSchema} (ha : a.Distinct) (hb : b.Distinct) (hc : c.Distinct) :
    a.mergeFrom a = some a ∧
    (a.mergeFrom b).map allColumns = (b.mergeFrom a).map allColumns ∧
    ((a.mergeFrom b).bind (·.mergeFrom c)).map allColumns = ((b.mergeFrom c).bind a.mergeFrom).map allColumns ∧
    (∀ merged, a.mergeFrom b = some merged → merged.Distinct ∧
      ∀ path, merged.allColumns path = ⊥ → a.allColumns path = ⊥ ∧ b.allColumns path = ⊥) ∧
    (Compatible (.object a) (.object b) → ((a.mergeFrom b).isSome ↔ NestedAgree (.object a) (.object b))) := by
  refine ⟨mergeFrom_self ha, mergeFrom_comm ha hb, Option.ext fun all => ?_, fun merged h => ?_,
    fun hcompat => ⟨fun hsome => ?_, fun hagree => ?_⟩⟩
  · have hright : ∀ bc, b.mergeFrom c = some bc → (a.mergeFrom bc).map allColumns = (bc.mergeFrom a).map allColumns :=
      fun bc hbc => mergeFrom_comm ha (isLUB_mergeFrom hb hc hbc).1
    simp only [Option.map_bind, bind_eq_some_iff, comp_apply]
    rw [map_mergeFrom_mergeFrom ha hb hc, Set.insert_comm, Set.pair_comm a.allColumns, ← map_mergeFrom_mergeFrom hb hc ha]
    exact exists_congr fun bc => and_congr_right fun hbc => by rw [hright bc hbc]
  · obtain ⟨hdistinct, hlub⟩ := isLUB_mergeFrom ha hb h
    refine ⟨hdistinct, fun path hpath => ⟨?_, ?_⟩⟩
    · exact le_bot_iff.mp (hpath ▸ hlub.1 (Or.inl rfl) path)
    · exact le_bot_iff.mp (hpath ▸ hlub.1 (Or.inr rfl) path)
  · obtain ⟨merged, h⟩ := isSome_iff_exists.mp hsome
    obtain ⟨-, hlub⟩ := isLUB_mergeFrom ha hb h
    intro path t u ht hu
    have hself := hlub.1 (Or.inl rfl) path
    have hother := hlub.1 (Or.inr rfl) path
    rw [show a.allColumns path = _ from ht] at hself
    rw [show b.allColumns path = _ from hu] at hother
    have heq : growth (.array (.array t)) = growth (.array (.array u)) := by
      rcases prefix_or_prefix_of_prefix hself hother with hle | hle
      · exact hle.eq_of_length rfl
      · exact (hle.eq_of_length rfl).symm
    simpa [growth, withNested] using heq
  · have hsome := isSome_joinType (a := .object a) (b := .object b) ha hb (hcompat.le_or_le hagree)
    rwa [joinType_object, isSome_map] at hsome

theorem mergeFrom_join_nulls : mergeFrom ⟨[⟨"a", .null⟩]⟩ ⟨[⟨"a", .integer⟩, ⟨"b", .string⟩]⟩ =
      some ⟨[⟨"a", .integer⟩, ⟨"b", .string⟩]⟩ ∧
    (mergeFrom ⟨[⟨"a", .null⟩]⟩ ⟨[⟨"a", .integer⟩, ⟨"b", .string⟩]⟩).map allColumns =
      (mergeFrom ⟨[⟨"a", .integer⟩, ⟨"b", .string⟩]⟩ ⟨[⟨"a", .null⟩]⟩).map allColumns :=
  ⟨by decide, (mergeFrom_join (c := minimal) (by simp [distinct_iff, names, DistinctType])
    (by simp [distinct_iff, names, DistinctType]) (by simp [distinct_iff, minimal, names])).2.1⟩

/-- **Nulls in lists of lists.** Such columns are compatible and cannot be merged. -/
theorem mergeFrom_stops :
    Compatible (.object ⟨[⟨"a", .array (.array .null)⟩]⟩) (.object ⟨[⟨"a", .array (.array .integer)⟩]⟩) ∧
      mergeFrom ⟨[⟨"a", .array (.array .null)⟩]⟩ ⟨[⟨"a", .array (.array .integer)⟩]⟩ = none := by
  refine ⟨.object fun name t u ht hu => ?_, by decide⟩
  rw [typeAt_cons] at ht hu
  split at ht
  · rename_i hname
    rw [if_pos hname] at hu
    cases ht
    cases hu
    exact .array (.array (.nullLeft _))
  · cases ht

/-! ### Many merges -/

/-- `merged` is the merge of some schemas: each column has the longest growth that it has in one of them. -/
structure MergeOf (schemas : List PowdrrSchema) (merged : PowdrrSchema) : Prop where
  nodup : merged.names.Nodup
  above : ∀ schema ∈ schemas, ∀ name, schema.allColumns [name] ≤ merged.allColumns [name]
  source : ∀ name, ∃ schema ∈ schemas, merged.allColumns [name] = schema.allColumns [name]

section

variable {schemas : List PowdrrSchema} {schema merged merged' : PowdrrSchema} {name : String}

theorem MergeOf.single (h : schema.names.Nodup) : MergeOf [schema] schema where
  nodup := h
  above _ hs _ := mem_singleton.mp hs ▸ le_rfl
  source _ := ⟨schema, mem_singleton_self _, rfl⟩

theorem MergeOf.snoc (h : MergeOf schemas merged) (hschema : schema.names.Nodup)
    (hmerge : mergeFrom merged schema = some merged') : MergeOf (schemas ++ [schema]) merged' := by
  have hjoin : joinType (.object merged) (.object schema) = some (.object merged') := by
    rw [joinType_object, hmerge]
    rfl
  have hgreatest : ∀ name,
      IsGreatest {merged.allColumns [name], schema.allColumns [name]} (merged'.allColumns [name]) := fun name =>
    isGreatest_cons (a := .object merged) (b := .object schema) h.nodup hschema hjoin fun _ _ _ _ _ hv =>
      (joinType_eq_some hv).1
  refine ⟨(names_mergeFrom h.nodup hschema hmerge).1, fun s hs name => ?_, fun name => ?_⟩
  · rcases mem_append.mp hs with hs | hs
    · exact (h.above s hs name).trans ((hgreatest name).2 (Or.inl rfl))
    · exact mem_singleton.mp hs ▸ (hgreatest name).2 (Or.inr rfl)
  · rcases (hgreatest name).1 with heq | heq
    · obtain ⟨s, hs, hname⟩ := h.source name
      exact ⟨s, mem_append_left _ hs, heq.trans hname⟩
    · exact ⟨schema, mem_append_right _ (mem_singleton_self _), heq⟩

theorem MergeOf.foldlM {seen : List PowdrrSchema} {acc : PowdrrSchema} (h : MergeOf seen acc)
    (hnodup : ∀ schema ∈ schemas, schema.names.Nodup)
    (hmerge : schemas.foldlM mergeFrom acc = some merged) : MergeOf (seen ++ schemas) merged := by
  induction schemas generalizing seen acc with
  | nil =>
    rw [append_nil]
    exact Option.some.inj hmerge ▸ h
  | cons schema schemas ih =>
    obtain ⟨next, hnext, hrest⟩ := bind_eq_some_iff.mp hmerge
    have hsnoc := h.snoc (hnodup schema mem_cons_self) hnext
    have hall := ih hsnoc (fun s hs => hnodup s (mem_cons_of_mem _ hs)) hrest
    rwa [append_assoc] at hall

theorem MergeOf.of_perm (h : MergeOf schemas merged) (hperm : merged'.fields.Perm merged.fields) :
    MergeOf schemas merged' := by
  have hnodup : merged'.names.Nodup := (hperm.map _).nodup_iff.mpr h.nodup
  have heq : typeAt merged'.fields = typeAt merged.fields := by
    funext name
    refine Option.ext fun t => ?_
    rw [typeAt_eq_some hnodup, typeAt_eq_some h.nodup, hperm.mem_iff]
  have hcolumns : ∀ name, merged'.allColumns [name] = merged.allColumns [name] := fun name => by
    simp only [allColumns, columns, nested, heq]
  exact ⟨hnodup, by simpa only [hcolumns] using h.above, by simpa only [hcolumns] using h.source⟩

theorem allColumns_of_typeAt (h : typeAt schema.fields name = some t) : schema.allColumns [name] = t.growth := by
  rw [allColumns, columns, nested, h]
  rfl

theorem exists_typeAt (h : t.growth <+: schema.allColumns [name]) :
    ∃ u, typeAt schema.fields name = some u ∧ t.growth <+: u.growth := by
  cases hu : typeAt schema.fields name with
  | none =>
    have hnil : schema.allColumns [name] = ([] : List PowdrrDataType) := by
      rw [allColumns, columns, nested, hu]
      rfl
    exact absurd (prefix_nil.mp ((growth_null t).trans (hnil ▸ h))) (cons_ne_nil _ _)
  | some u => exact ⟨u, rfl, allColumns_of_typeAt hu ▸ h⟩

theorem MergeOf.exists_source (h : MergeOf schemas merged) (ht : typeAt merged.fields name = some t) :
    ∃ schema ∈ schemas, ∃ u, typeAt schema.fields name = some u ∧ t.growth <+: u.growth := by
  obtain ⟨schema, hschema, heq⟩ := h.source name
  rw [allColumns_of_typeAt ht] at heq
  exact ⟨schema, hschema, exists_typeAt (heq ▸ prefix_rfl)⟩

theorem MergeOf.exists_above (h : MergeOf schemas merged) (hschema : schema ∈ schemas)
    (ht : typeAt schema.fields name = some t) :
    ∃ u, typeAt merged.fields name = some u ∧ t.growth <+: u.growth :=
  exists_typeAt (allColumns_of_typeAt ht ▸ h.above schema hschema name)

theorem MergeOf.mem_names (h : MergeOf schemas merged) :
    name ∈ merged.names ↔ ∃ schema ∈ schemas, name ∈ schema.names := by
  simp only [mem_names_iff]
  constructor
  · rintro ⟨t, ht⟩
    obtain ⟨schema, hschema, u, hu, -⟩ := h.exists_source ht
    exact ⟨schema, hschema, u, hu⟩
  · rintro ⟨schema, hschema, t, ht⟩
    obtain ⟨u, hu, -⟩ := h.exists_above hschema ht
    exact ⟨u, hu⟩

theorem eq_of_growth (h : a.growth <+: b.growth) : (a.isPlain = true → a ≠ .null → b = a) ∧
    (b.isPlain = true → a.isPlain = true) := by
  cases a with
  | array t => cases t <;> cases b <;> simp_all [isPlain, growth, withNested]
  | _ => cases b with
    | array t => cases t <;> simp_all [isPlain, growth, withNested]
    | _ => simp_all [isPlain, growth, withNested]

/-! ### `merge_all` -/

theorem mergeOf_mergeAll (hnodup : ∀ schema ∈ schemas, schema.names.Nodup) (h : mergeAll schemas = some merged) :
    MergeOf schemas merged := by
  cases schemas with
  | nil => cases h
  | cons first rest =>
    obtain ⟨unsorted, hunsorted, rfl⟩ := map_eq_some_iff.mp h
    have hall := (MergeOf.single (hnodup first mem_cons_self)).foldlM
      (fun s hs => hnodup s (mem_cons_of_mem _ hs)) hunsorted
    exact hall.of_perm (perm_insertionSort _ _)

/-- A schema whose columns are of plain types. -/
structure Flat (schema : PowdrrSchema) : Prop where
  nodup : schema.names.Nodup
  plain : ∀ name t, typeAt schema.fields name = some t → t.isPlain = true

/-- No column has two types in these schemas; a null column has none yet. -/
def Agree (schemas : List PowdrrSchema) : Prop :=
  ∀ schema ∈ schemas, ∀ other ∈ schemas, ∀ name t u, typeAt schema.fields name = some t →
    typeAt other.fields name = some u → t ≠ .null → u ≠ .null → t = u

/-- Columns that have the same type in every schema do not matter for agreement. -/
theorem agree_map_iff {α : Type} {l : List α} {f g : α → PowdrrSchema} {own : String → Option PowdrrDataType}
    (hf : ∀ x ∈ l, ∀ name, typeAt (f x).fields name = (own name).or (typeAt (g x).fields name))
    (hg : ∀ x ∈ l, ∀ name, (own name).isSome = true → typeAt (g x).fields name = none) :
    Agree (l.map f) ↔ Agree (l.map g) := by
  simp only [Agree, forall_mem_map]
  constructor
  · intro h x hx y hy name t u ht hu
    cases hown : own name with
    | some _ => cases (hg x hx name (by rw [hown]; rfl)).symm.trans ht
    | none => exact h x hx y hy name t u (by rw [hf x hx, hown, ht]; rfl) (by rw [hf y hy, hown, hu]; rfl)
  · intro h x hx y hy name t u ht hu
    rw [hf x hx] at ht
    rw [hf y hy] at hu
    cases hown : own name with
    | some v =>
      rw [hown] at ht hu
      cases ht
      cases hu
      exact fun _ _ => rfl
    | none =>
      rw [hown] at ht hu
      exact h x hx y hy name t u ht hu

theorem isSome_joinType_of_plain (ha : a.isPlain = true) (hb : b.isPlain = true)
    (h : a ≠ .null → b ≠ .null → a = b) : (joinType a b).isSome = true := by
  cases a <;> cases b <;> simp_all [joinType, mergeDataType, mergePlainType, isPlain]

/-- One more schema is merged where it agrees with those before. -/
theorem MergeOf.isSome_mergeFrom (h : MergeOf schemas merged) (hflat : ∀ s ∈ schemas, s.Flat) (hschema : schema.Flat)
    (hagree : Agree (schemas ++ [schema])) : (mergeFrom merged schema).isSome = true := by
  rw [PowdrrSchema.isSome_mergeFrom h.nodup hschema.nodup]
  rintro ⟨name, t⟩ hfield
  cases hu : typeAt schema.fields name with
  | none => rfl
  | some u =>
    have ht := (typeAt_eq_some h.nodup).mpr hfield
    obtain ⟨source, hsource, v, hv, hgrown⟩ := h.exists_source ht
    have hvplain := (hflat source hsource).plain name v hv
    have htplain := (eq_of_growth hgrown).2 hvplain
    refine isSome_joinType_of_plain htplain (hschema.plain name u hu) fun htnull hunull => ?_
    obtain rfl := (eq_of_growth hgrown).1 htplain htnull
    exact hagree source (mem_append_left _ hsource) schema (mem_append_right _ (mem_singleton_self _)) name v u hv hu
      htnull hunull

theorem isSome_foldlM {seen : List PowdrrSchema} {acc : PowdrrSchema} (h : MergeOf seen acc)
    (hflat : ∀ s ∈ seen ++ schemas, s.Flat) (hagree : Agree (seen ++ schemas)) :
    (schemas.foldlM mergeFrom acc).isSome = true := by
  induction schemas generalizing seen acc with
  | nil => rfl
  | cons schema schemas ih =>
    rw [← singleton_append, ← append_assoc] at hflat hagree
    have hseen : ∀ s ∈ seen ++ [schema], s ∈ seen ++ [schema] ++ schemas := fun s hs => mem_append_left _ hs
    have hschema := hflat schema (hseen _ (mem_append_right _ (mem_singleton_self _)))
    obtain ⟨next, hnext⟩ := isSome_iff_exists.mp (h.isSome_mergeFrom
      (fun s hs => hflat s (hseen s (mem_append_left _ hs))) hschema
      fun s hs other hother => hagree s (hseen s hs) other (hseen other hother))
    rw [foldlM_cons, hnext]
    exact ih (h.snoc hschema.nodup hnext) hflat hagree

/-- **Schemas of plain columns are merged exactly if they agree.** -/
theorem isSome_mergeAll (hne : schemas ≠ []) (hflat : ∀ s ∈ schemas, s.Flat) :
    (mergeAll schemas).isSome = true ↔ Agree schemas := by
  constructor
  · intro h
    obtain ⟨merged, hmerged⟩ := isSome_iff_exists.mp h
    have hmerge := mergeOf_mergeAll (fun s hs => (hflat s hs).nodup) hmerged
    intro schema hschema other hother name t u ht hu htnull hunull
    obtain ⟨v, hv, htv⟩ := hmerge.exists_above hschema ht
    obtain ⟨w, hw, huw⟩ := hmerge.exists_above hother hu
    obtain rfl := Option.some.inj (hv.symm.trans hw)
    have htplain := (hflat schema hschema).plain name t ht
    have huplain := (hflat other hother).plain name u hu
    exact ((eq_of_growth htv).1 htplain htnull).symm.trans ((eq_of_growth huw).1 huplain hunull)
  · intro hagree
    cases schemas with
    | nil => exact absurd rfl hne
    | cons first rest =>
      rw [mergeAll, isSome_map]
      exact isSome_foldlM (MergeOf.single (hflat first mem_cons_self).nodup) hflat hagree

end

end PowdrrSchema

end PowdrrEngine
