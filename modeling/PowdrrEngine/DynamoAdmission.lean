import PowdrrEngine.DynamoPatterns

/-! Which reads are admitted: the plan of a read has to pass validation and to match a pattern that was
derived from the configuration of its table. -/

namespace PowdrrEngine

open ServingPattern PreparedQuery ReadPredicate List

variable {fields : List String} {schema : PowdrrSchema} {name : String} {names : List String}

/-- **Admission.** A plan passes validation and matches a pattern of the table. -/
def Admitted (config : DynamoDbTableConfig) (schema : PowdrrSchema) (plan : ReadPlan) : Prop :=
  validateRequest plan schema = .ok () ∧ ∃ pattern ∈ derivedDynamodbServingPatterns config,
      requestMatchesPattern plan pattern plan.normalizedLimit = true

/-! ### Admission of a query -/

/-- When a query is admitted, as far as the request and its target go. -/
structure QueryAdmissible (schema : PowdrrSchema) (request : QueryRequest) (target : QueryTarget)
    (selectMode : SelectMode) : Prop where
  projected : ∀ field ∈ (queryRequestedProjection request.projection selectMode).getD [],
    (schema.toMapGet field).isSome = true
  limit : target.uniqueLookup = true ∧
      (target.keySchema.sortKey = none ∨ ∃ value, request.sortCondition = some (.eq value)) ∨
    request.pageLimit < 1000
  sorted : target.uniqueLookup = true ∨ target.keySchema.sortKey ≠ none
  continues : ¬ request.Ended target.keySchema

theorem mem_appendSelectedField {fieldName : String} :
    name ∈ appendSelectedField fields fieldName ↔ name ∈ fields ∨ name = fieldName := by
  unfold appendSelectedField
  split
  · constructor
    · exact Or.inl
    · rintro (h | rfl)
      · exact h
      · assumption
  · simp

theorem mem_foldl_appendSelectedField :
    name ∈ names.foldl appendSelectedField fields ↔ name ∈ fields ∨ name ∈ names := by
  induction names generalizing fields with
  | nil => simp
  | cons first names ih => rw [foldl_cons, ih, mem_appendSelectedField, mem_cons, or_assoc]

theorem mem_foldl_appendSelectedFieldIfInSchema : name ∈ names.foldl (appendSelectedFieldIfInSchema schema) fields ↔
      name ∈ fields ∨ name ∈ names ∧ (schema.toMapGet name).isSome = true := by
  induction names generalizing fields with
  | nil => simp
  | cons first names ih =>
    rw [foldl_cons, ih]
    unfold appendSelectedFieldIfInSchema
    split
    · rw [mem_appendSelectedField, mem_cons]
      grind
    · grind

section

variable {keySchema : DynamoDbKeySchemaConfig}

theorem isSome_of_keyColumn (h : KeyColumn schema name) : (schema.toMapGet name).isSome = true := by
  obtain ⟨field, hfield, -⟩ := h
  rw [hfield]
  rfl

theorem selected_iff (haccepted : KeySchemaAccepted schema keySchema) (projection : Option (List String))
    (filter : Option FilterNode) :
    (∀ field ∈ (normalizedSelect (querySelectFields projection filter keySchema schema)).getD [],
      (schema.toMapGet field).isSome = true) ↔
      ∀ field ∈ projection.getD [], (schema.toMapGet field).isSome = true := by
  cases projection with
  | none => simp [querySelectFields, normalizedSelect]
  | some fields =>
    have hmem : ∀ name, name ∈ (filterFields filter).foldl (appendSelectedFieldIfInSchema schema)
        (keySchema.fields.foldl appendSelectedField fields) ↔
        (name ∈ fields ∨ name ∈ keySchema.fields) ∨
          name ∈ filterFields filter ∧ (schema.toMapGet name).isSome = true := by
      intro name
      rw [mem_foldl_appendSelectedFieldIfInSchema, mem_foldl_appendSelectedField]
    have hkeys : ∀ name ∈ keySchema.fields, (schema.toMapGet name).isSome = true :=
      fun name hname => isSome_of_keyColumn (haccepted.column name hname)
    simp only [querySelectFields, Option.map_some, Option.getD_some]
    generalize hselect : (filterFields filter).foldl (appendSelectedFieldIfInSchema schema)
      (keySchema.fields.foldl appendSelectedField fields) = select at hmem
    unfold normalizedSelect
    split
    · -- the partition key is selected, so it is the one field
      rename_i hstar
      obtain rfl : select = ["*"] := Option.some.inj hstar
      have hpartition : keySchema.partitionKey = "*" := mem_singleton.mp ((hmem _).mpr (Or.inl (Or.inr mem_cons_self)))
      refine iff_of_true (by simp) fun name hname => ?_
      have hname' : name = "*" := mem_singleton.mp ((hmem name).mpr (Or.inl (Or.inl hname)))
      rw [hname', ← hpartition]
      exact hkeys _ mem_cons_self
    · constructor
      · exact fun hall name hname => hall name ((hmem name).mpr (Or.inl (Or.inl hname)))
      intro hall name hname
      rcases (hmem name).mp hname with (hname | hname) | ⟨-, hname⟩
      · exact hall name hname
      · exact hkeys name hname
      · exact hname

theorem validateFilter_of_operands {filter : ReadPredicate} (hsimple : filter.Simple)
    (h : ∀ value ∈ filter.operands, FitsColumn schema filter.field value) (hcolumn : KeyColumn schema filter.field) :
    ∃ field, schema.toMapGet filter.field = some field ∧ validateFilter filter field.dataType = .ok () := by
  obtain ⟨field, hfield, -⟩ := hcolumn
  have hfits : ∀ value ∈ filter.operands, field.dataType.fits value = true := by
    intro value hvalue
    obtain ⟨field', hfield', hfits⟩ := h value hvalue
    cases hfield.symm.trans hfield'
    exact hfits
  refine ⟨field, hfield, (validateFilter_eq_ok hsimple.1).mpr ⟨hsimple.2, fun value hvalue => ?_, ?_⟩⟩
  · exact hfits value (mem_append_left _ (Option.mem_toList.mpr hvalue))
  · exact (forall_mem_append.mp hfits).2

theorem validateFilter_eq {value : Value} (hfits : FitsColumn schema name value) (hcolumn : KeyColumn schema name) :
    ∃ field, schema.toMapGet name = some field ∧
      validateFilter { field := name, eq := some value } field.dataType = .ok () := by
  have hsimple : Simple { field := name, eq := some value } := ⟨rfl, Or.inl ⟨rfl, rfl⟩⟩
  refine validateFilter_of_operands hsimple (fun operand hoperand => ?_) hcolumn
  obtain rfl : operand = value := by
    simpa [operands, bounds] using hoperand
  exact hfits

theorem KeySchemaAccepted.nodup (haccepted : KeySchemaAccepted schema keySchema) : keySchema.fields.Nodup := by
  unfold DynamoDbKeySchemaConfig.fields
  cases hsort : keySchema.sortKey with
  | none => simp
  | some sortKey => simpa using (haccepted.distinct sortKey hsort).symm

end

theorem queryFetchLimit_le_iff {pageLimit : Nat} {sortIsExactEq hashOnly uniqueLookup : Bool}
    (hpage : pageLimit ≤ 1000) : queryFetchLimit pageLimit sortIsExactEq hashOnly uniqueLookup ≤ 1000 ↔
      uniqueLookup = true ∧ (hashOnly = true ∨ sortIsExactEq = true) ∨ pageLimit < 1000 := by
  unfold queryFetchLimit
  split
  · rename_i h
    exact iff_of_true (by omega) (Or.inl ⟨h.1, h.2.symm⟩)
  rename_i h
  constructor
  · exact fun hle => Or.inr (by omega)
  · rintro (hunique | hlt)
    · exact absurd ⟨hunique.1, hunique.2.symm⟩ h
    · omega

theorem pageLimitOf_bounds (limit : Option Nat) : 1 ≤ pageLimitOf limit ∧ pageLimitOf limit ≤ 1000 := by
  unfold pageLimitOf
  omega

section

variable {config : DynamoDbTableConfig} {request : QueryRequest} {prepared : PreparedQuery} {pattern : ServingPattern}

theorem validateRequest_prepareQuery (hconfig : validateDynamodbConfig schema config = .ok ())
    (h : prepareQuery config schema request = .ok prepared)
    (htyped : request.Typed prepared.target.keySchema schema)
    (htarget : queryTarget config request.indexName = .ok prepared.target) :
    validateRequest prepared.plan schema = .ok () ↔
      (∀ field ∈ (queryRequestedProjection request.projection prepared.selectMode).getD [],
        (schema.toMapGet field).isSome = true) ∧
      (prepared.target.uniqueLookup = true ∧ (prepared.target.keySchema.sortKey = none ∨
        ∃ value, request.sortCondition = some (.eq value)) ∨ request.pageLimit < 1000) := by
  have haccepted := accepted_of_queryTarget hconfig htarget
  obtain ⟨-, sortFilter, hsort, hplan⟩ := prepareQuery_spec h haccepted
  have hoperands : ∀ filter ∈ sortFilter, ∀ value ∈ filter.operands, FitsColumn schema filter.field value := by
    intro filter hfilter value hvalue
    have hkey := (hsort.simple filter hfilter).2
    rcases hsort.operands filter hfilter value hvalue with ⟨condition, hcondition, hmem⟩ | hstart
    · exact htyped.condition _ hkey condition hcondition value hmem
    · exact htyped.start _ hkey value hstart
  have hsortKey : ∀ sortKey, prepared.target.keySchema.sortKey = some sortKey → KeyColumn schema sortKey :=
    fun sortKey hkey => haccepted.column _ (by simp [DynamoDbKeySchemaConfig.fields, hkey])
  rw [hplan]
  have hfilters : ∀ filter ∈ (prepared.planWith schema request sortFilter).filters,
      ∃ field, schema.toMapGet filter.field = some field ∧ validateFilter filter field.dataType = .ok () := by
    intro filter hfilter
    rcases mem_cons.mp hfilter with rfl | hfilter
    · exact validateFilter_eq htyped.partition (haccepted.column _ mem_cons_self)
    · have hmem : filter ∈ sortFilter := by simpa using hfilter
      obtain ⟨hsimple, hkey⟩ := hsort.simple filter hmem
      exact validateFilter_of_operands hsimple (hoperands filter hmem) (hsortKey _ hkey)
  have hnodup : ((prepared.planWith schema request sortFilter).filters.map (·.field)).Nodup := by
    cases sortFilter with
    | none => simp [planWith, queryFilters]
    | some filter =>
      have hkey := (hsort.simple filter rfl).2
      simpa [planWith, queryFilters] using (haccepted.distinct _ hkey).symm
  have horder : (prepared.planWith schema request sortFilter).orderBy.length ≤ 1 ∧
      ∀ sort ∈ (prepared.planWith schema request sortFilter).orderBy, (schema.toMapGet sort.field).isSome = true := by
    unfold planWith queryOrder
    split
    · simp
    cases hkey : prepared.target.keySchema.sortKey with
    | none => simp
    | some sortKey => simpa using isSome_of_keyColumn (hsortKey sortKey hkey)
  have hlimit := @queryFetchLimit_le_iff _ prepared.sortIsExactEq (prepared.target.keySchema.sortKey = none)
    prepared.target.uniqueLookup (pageLimitOf_bounds request.limit).2
  rw [hsort.exact, decide_eq_true_iff] at hlimit
  rw [validateRequest_eq_ok rfl,
    ← selected_iff haccepted (queryRequestedProjection request.projection prepared.selectMode)]
  constructor
  · rintro ⟨-, hselected, -, -, -, hle⟩
    exact ⟨hselected, hlimit.mp hle⟩
  · rintro ⟨hselected, hle⟩
    exact ⟨horder.1, hselected, horder.2, hnodup, hfilters, hlimit.mpr hle⟩

theorem ServingPattern.covers_of_projection (h : pattern.projection = none)
    (plan : ReadPlan) : pattern.covers plan = true := by
  simp [covers, h]

theorem derived_of_orderField_none (hconfig : validateDynamodbConfig schema config = .ok ())
    (h : pattern ∈ derivedDynamodbServingPatterns config) (horder : pattern.orderField = none) :
    pattern.rangeField = none ∧
      (pattern.maxLimit = some 1 ∨ ∃ field ∈ pattern.eqFields, ∃ field' ∈ pattern.eqFields, field ≠ field') := by
  obtain ⟨htable, hlocal, hglobal⟩ := accepted_of_validateDynamodbConfig hconfig
  obtain ⟨start, keySchema, getItem, exactQuery, haccepted, hmem⟩ : ∃ start keySchema getItem exactQuery,
      KeySchemaAccepted schema keySchema ∧
      pattern ∈ derivedServingPatternsForKeySchema start keySchema getItem exactQuery := by
    rw [derivedDynamodbServingPatterns, mem_append, mem_append, mem_flatMap, mem_flatMap] at h
    rcases h with (h | ⟨index, hindex, h⟩) | ⟨index, hindex, h⟩
    · exact ⟨_, _, _, _, htable, h⟩
    · exact ⟨_, _, _, _, hlocal index hindex, h⟩
    · exact ⟨_, _, _, _, hglobal index hindex, h⟩
  rcases mem_derivedServingPatterns_iff.mp hmem with ⟨-, rfl⟩ | ⟨-, hsome, rfl⟩ |
    ⟨sortKey, -, descending, rfl | rfl⟩
  · exact ⟨rfl, Or.inl rfl⟩
  · obtain ⟨sortKey, hsort⟩ := Option.isSome_iff_exists.mp hsome
    refine ⟨rfl, Or.inr ⟨sortKey, ?_, keySchema.partitionKey, mem_cons_self, haccepted.distinct _ hsort⟩⟩
    simp [DynamoDbKeySchemaConfig.fields, hsort]
  · cases horder
  · cases horder

theorem orderField_none_of_match {plan : ReadPlan} (hplan : plan.orderBy = [])
    (h : pattern.orders plan = true) : pattern.orderField = none := by
  unfold orders at h
  cases hfield : pattern.orderField with
  | none => rfl
  | some orderField =>
    rw [hfield, hplan] at h
    cases h

variable {sortFilter : Option ReadPredicate}

section

variable (hconfig : validateDynamodbConfig schema config = .ok ())
  (hsort : SortFilterOf request prepared.target.keySchema prepared.sortIsExactEq sortFilter)
  (hplan : prepared.plan = prepared.planWith schema request sortFilter)
  (hpattern : pattern ∈ derivedDynamodbServingPatterns config)
  (hmatch : requestMatchesPattern prepared.plan pattern prepared.plan.normalizedLimit = true)

include hconfig hsort hplan hpattern hmatch

/-- A query on an index without a sort key has one filter and asks for two rows at least: no pattern has
room for it. -/
theorem sorted_of_match : prepared.target.uniqueLookup = true ∨ prepared.target.keySchema.sortKey ≠ none := by
  obtain ⟨hmax, -, -, horders, -, hseen, -⟩ := requestMatchesPattern_iff.mp hmatch
  by_contra hnone
  obtain ⟨hunique, hkey⟩ := not_or.mp hnone
  rw [ne_eq, not_not] at hkey
  have hfilter : sortFilter = none := by
    cases sortFilter with
    | none => rfl
    | some filter =>
      have hsome := (hsort.simple filter rfl).2
      rw [hkey] at hsome
      cases hsome
  have horder : prepared.plan.orderBy = [] := by
    rw [hplan]
    simp [planWith, queryOrder, hkey]
  obtain ⟨-, hlimit | ⟨field, hfield, field', hfield', hne⟩⟩ :=
    derived_of_orderField_none hconfig hpattern (orderField_none_of_match horder horders)
  · have hle := hmax 1 hlimit
    rw [hplan] at hle
    simp only [ReadPlan.normalizedLimit, planWith, queryFetchLimit, hunique, Option.getD_some,
      maxLimit, Bool.false_eq_true, false_and, if_false] at hle
    have hpos : 1 ≤ request.pageLimit := (pageLimitOf_bounds request.limit).1
    omega
  have hone : ∀ name ∈ pattern.eqFields, name = prepared.target.keySchema.partitionKey := by
    intro name hname
    obtain ⟨filter, hmem, rfl⟩ := hseen name hname
    rw [hplan, hfilter] at hmem
    obtain rfl := mem_singleton.mp hmem
    rfl
  exact hne ((hone field hfield).trans (hone field' hfield').symm)

/-- At its end a query has a range and no order, and no pattern has that. -/
theorem not_ended_of_match : ¬ request.Ended prepared.target.keySchema := by
  obtain ⟨-, -, -, horders, hallows, -, -⟩ := requestMatchesPattern_iff.mp hmatch
  intro hended
  have hexact : prepared.sortIsExactEq = true := by
    obtain ⟨_, value, _, -, hcondition, -⟩ := hended
    exact hsort.exact.mpr ⟨value, hcondition⟩
  obtain ⟨filter, rfl, hiff⟩ := hsort.ended hexact
  have hrange : filter.hasRange = true := by
    rw [hasRange_iff]
    rcases (hsort.simple filter rfl).1.2 with ⟨hsome, -⟩ | ⟨-, hbounds⟩
    · exact absurd hended (hiff.mp hsome)
    · exact hbounds
  have horder : prepared.plan.orderBy = [] := by
    rw [hplan]
    simp [planWith, queryOrder, hexact]
  obtain ⟨hnone, -⟩ := derived_of_orderField_none hconfig hpattern (orderField_none_of_match horder horders)
  have hallow := hallows filter (by rw [hplan]; simp [planWith, queryFilters])
  simp [allows, hrange, hnone] at hallow

end

section

variable (hsort : SortFilterOf request prepared.target.keySchema prepared.sortIsExactEq sortFilter)
  (hplan : prepared.plan = prepared.planWith schema request sortFilter)

include hsort hplan

theorem matches_wholeKey (hended : ¬ request.Ended prepared.target.keySchema)
    (hwhole : prepared.target.keySchema.sortKey = none ∨ prepared.sortIsExactEq = true) (name : String)
    {maxLimit : Option Nat} (hmax : ∀ limit ∈ maxLimit, prepared.plan.normalizedLimit ≤ limit) :
    requestMatchesPattern prepared.plan
      ⟨name, prepared.target.keySchema.fields, none, none, false, maxLimit, none, none⟩
      prepared.plan.normalizedLimit = true := by
  rw [hplan] at hmax ⊢
  refine requestMatchesPattern_iff.mpr ⟨hmax, covers_of_projection rfl _, rfl, ?_, ?_, ?_, by simp⟩
  · rcases hwhole with hnone | hexact
    · simp [planWith, queryOrder, orders, hnone]
    · simp [planWith, queryOrder, orders, hexact]
  · intro filter hfilter
    rcases mem_cons.mp hfilter with rfl | hfilter
    · simp [allows, hasRange, DynamoDbKeySchemaConfig.fields]
    have hmem : filter ∈ sortFilter := by simpa using hfilter
    obtain ⟨hsimple, hkey⟩ := hsort.simple filter hmem
    have hexact : prepared.sortIsExactEq = true := hwhole.resolve_left (by rw [hkey]; simp)
    obtain ⟨filter', rfl, hiff⟩ := hsort.ended hexact
    obtain rfl := Option.some.inj hmem
    have hrange : filter'.hasRange = false := by
      rw [← Bool.not_eq_true, hasRange_iff, not_not]
      rcases hsimple.2 with ⟨-, hbounds⟩ | ⟨hnone, -⟩
      · exact hbounds
      · have hsome := hiff.mpr hended
        rw [hnone] at hsome
        cases hsome
    simp [allows, hrange, DynamoDbKeySchemaConfig.fields, hkey]
  · intro field hfield
    rcases mem_cons.mp hfield with rfl | hfield
    · exact ⟨_, mem_cons_self, rfl⟩
    · have hkey : prepared.target.keySchema.sortKey = some field := by simpa using hfield
      obtain ⟨filter, rfl, -⟩ := hsort.ended (hwhole.resolve_left (by rw [hkey]; simp))
      refine ⟨filter, by simp [planWith, queryFilters], ?_⟩
      exact Option.some.inj ((hsort.simple filter rfl).2.symm.trans hkey)

theorem matches_sortKey {sortKey : String} (hkey : prepared.target.keySchema.sortKey = some sortKey)
    (hexact : prepared.sortIsExactEq = false) (name : String) :
    requestMatchesPattern prepared.plan
      ⟨name, [prepared.target.keySchema.partitionKey], sortFilter.map (·.field), some sortKey,
        !request.ascending, none, none, none⟩ prepared.plan.normalizedLimit = true := by
  rw [hplan]
  refine requestMatchesPattern_iff.mpr ⟨by simp, covers_of_projection rfl _, rfl, ?_, ?_, ?_, ?_⟩
  · simp [planWith, queryOrder, orders, hexact, hkey]
  · intro filter hfilter
    rcases mem_cons.mp hfilter with rfl | hfilter
    · simp [allows, hasRange]
    · have hmem : sortFilter = some filter := by simpa using hfilter
      have hnone : filter.eq = none := hsort.range hexact filter hmem
      have hin : filter.inValues = none := (hsort.simple filter hmem).1.1
      simp [allows, hasEq, hnone, hin, hmem]
  · intro field hfield
    exact ⟨_, mem_cons_self, (mem_singleton.mp hfield).symm⟩
  · intro field hfield
    obtain ⟨filter, hfilter, rfl⟩ := Option.map_eq_some_iff.mp (Option.mem_def.mp hfield)
    exact ⟨filter, by simp [planWith, queryFilters, hfilter], rfl⟩

end

section

variable (hconfig : validateDynamodbConfig schema config = .ok ())
  (h : prepareQuery config schema request = .ok prepared)

include hconfig h

theorem exists_pattern_iff (htarget : queryTarget config request.indexName = .ok prepared.target) :
    (∃ pattern ∈ derivedDynamodbServingPatterns config,
      requestMatchesPattern prepared.plan pattern prepared.plan.normalizedLimit = true) ↔
      (prepared.target.uniqueLookup = true ∨ prepared.target.keySchema.sortKey ≠ none) ∧
        ¬ request.Ended prepared.target.keySchema := by
  obtain ⟨-, sortFilter, hsort, hplan⟩ := prepareQuery_spec h (accepted_of_queryTarget hconfig htarget)
  obtain ⟨start, hderived⟩ := derived_of_queryTarget htarget
  constructor
  · rintro ⟨pattern, hpattern, hmatch⟩
    exact ⟨sorted_of_match hconfig hsort hplan hpattern hmatch, not_ended_of_match hconfig hsort hplan hpattern hmatch⟩
  rintro ⟨hkind, hended⟩
  by_cases hwhole : prepared.target.keySchema.sortKey = none ∨ prepared.sortIsExactEq = true
  · cases hunique : prepared.target.uniqueLookup with
    | true =>
      have hone : prepared.plan.normalizedLimit ≤ 1 := by
        have hcond : prepared.sortIsExactEq = true ∨ decide (prepared.target.keySchema.sortKey = none) = true := by
          rw [decide_eq_true_iff]
          exact hwhole.symm
        rw [hplan, ReadPlan.normalizedLimit]
        simp only [planWith, queryFetchLimit, hunique, true_and, if_pos hcond, Option.getD_some]
        omega
      refine ⟨_, hderived _ (mem_derivedServingPatterns_iff.mpr (Or.inl ⟨hunique, rfl⟩)),
        matches_wholeKey hsort hplan hended hwhole _ ?_⟩
      rintro limit ⟨⟩
      exact hone
    | false =>
      rw [hunique] at hkind hderived
      have hsome := Option.isSome_iff_ne_none.mpr (hkind.resolve_left (by decide))
      exact ⟨_, hderived _ (mem_derivedServingPatterns_iff.mpr (Or.inr (Or.inl ⟨rfl, hsome, rfl⟩))),
        matches_wholeKey hsort hplan hended hwhole _ (by simp)⟩
  · obtain ⟨hsome, hexact⟩ := not_or.mp hwhole
    rw [Bool.not_eq_true] at hexact
    obtain ⟨sortKey, hkey⟩ := Option.ne_none_iff_exists'.mp hsome
    have hmatch := matches_sortKey hsort hplan hkey hexact
    cases sortFilter with
    | none =>
      exact ⟨_, hderived _ (mem_derivedServingPatterns_iff.mpr (Or.inr (Or.inr
        ⟨sortKey, hkey, !request.ascending, Or.inl rfl⟩))), hmatch _⟩
    | some filter =>
      have hfield : filter.field = sortKey := Option.some.inj ((hsort.simple filter rfl).2.symm.trans hkey)
      rw [Option.map_some, hfield] at hmatch
      exact ⟨_, hderived _ (mem_derivedServingPatterns_iff.mpr (Or.inr (Or.inr
        ⟨sortKey, hkey, !request.ascending, Or.inr rfl⟩))), hmatch _⟩

theorem admitted_query_iff (htyped : request.Typed prepared.target.keySchema schema) :
    Admitted config schema prepared.plan ↔ QueryAdmissible schema request prepared.target prepared.selectMode := by
  obtain ⟨target, htarget, hrest⟩ := Run.exists_ok_of_bind h
  have htarget' : queryTarget config request.indexName = .ok prepared.target := by
    obtain ⟨_, -, hrest⟩ := Run.exists_ok_of_bind hrest
    obtain ⟨_, -, hrest⟩ := Run.exists_ok_of_bind hrest
    obtain ⟨_, -, hrest⟩ := Run.exists_ok_of_bind hrest
    obtain ⟨_, -, hrest⟩ := Run.exists_ok_of_bind hrest
    cases hrest
    exact htarget
  rw [Admitted, validateRequest_prepareQuery hconfig h htyped htarget', exists_pattern_iff hconfig h htarget']
  exact ⟨fun ⟨⟨h1, h2⟩, h3, h4⟩ => ⟨h1, h2, h3, h4⟩, fun ⟨h1, h2, h3, h4⟩ => ⟨⟨h1, h2⟩, h3, h4⟩⟩

end

end

/-! ### Admission of a key -/

def KeyTyped (schema : PowdrrSchema) (keySchema : DynamoDbKeySchemaConfig) (key : JsonMap) : Prop :=
  ∀ name ∈ keySchema.fields, ∀ attr v, key.lookup name = some attr → dynamodbAttrToJson attr = .ok v →
    FitsColumn schema name v

theorem admitted_getItem_iff {config : DynamoDbTableConfig}
    (hconfig : validateDynamodbConfig schema config = .ok ()) {key : JsonMap} {projection : Option (List String)}
    {plan : ReadPlan} (h : getItemPlan config key projection = .ok plan)
    (htyped : KeyTyped schema (primaryKeySchema config) key) :
    Admitted config schema plan ↔
      ∀ field ∈ (normalizedSelect projection).getD [], (schema.toMapGet field).isSome = true := by
  have haccepted := (accepted_of_validateDynamodbConfig hconfig).1
  obtain ⟨parsed, hparsed, rfl⟩ := Run.map_eq_ok.mp h
  -- each key field has an equality with a value of its type
  have hfilters : ∀ filter ∈ keyToPredicates (primaryKeySchema config) parsed, ∃ value,
      filter = { field := filter.field, eq := some value } ∧
        filter.field ∈ (primaryKeySchema config).fields ∧ FitsColumn schema filter.field value := by
    intro filter hfilter
    obtain ⟨name, hname, rfl⟩ := mem_map.mp hfilter
    obtain ⟨attr, v, hattr, hv, hlookup⟩ := lookup_parseKeyMap hparsed hname
    exact ⟨v, by rw [hlookup], hname, htyped name hname attr v hattr hv⟩
  have hfields : (keyToPredicates (primaryKeySchema config) parsed).map (·.field) =
      (primaryKeySchema config).fields := by
    simp [keyToPredicates, Function.comp_def]
  have hvalid : ∀ filter ∈ keyToPredicates (primaryKeySchema config) parsed,
      ∃ field, schema.toMapGet filter.field = some field ∧ validateFilter filter field.dataType = .ok () := by
    intro filter hfilter
    obtain ⟨value, hshape, hname, hfits⟩ := hfilters filter hfilter
    rw [hshape]
    exact validateFilter_eq hfits (haccepted.column _ hname)
  constructor
  · rintro ⟨hrequest, -⟩
    exact ((validateRequest_eq_ok rfl).mp hrequest).2.1
  intro hselect
  refine ⟨(validateRequest_eq_ok rfl).mpr ⟨by simp, hselect, by simp, ?_, hvalid, (by decide : 1 ≤ 1000)⟩, ?_⟩
  · rw [hfields]
    exact haccepted.nodup
  have hpattern : mk (dynamodbConfigPatternPrefix ++ "get_item")
      (primaryKeySchema config).fields none none false (some 1) none none ∈
      derivedDynamodbServingPatterns config :=
    mem_append_left _ (mem_append_left _ (mem_derivedServingPatterns_iff.mpr (Or.inl ⟨rfl, rfl⟩)))
  refine ⟨_, hpattern, requestMatchesPattern_iff.mpr ⟨?_, covers_of_projection rfl _, rfl, rfl, ?_, ?_, by simp⟩⟩
  · rintro limit ⟨⟩
    exact Nat.min_le_left _ _
  · intro filter hfilter
    obtain ⟨value, hshape, hname, -⟩ := hfilters filter hfilter
    rw [hshape]
    simp [allows, hasRange, hname]
  · intro field hfield
    rw [← hfields] at hfield
    obtain ⟨filter, hmem, hname⟩ := mem_map.mp hfield
    exact ⟨filter, hmem, hname⟩

/-! ### Admission of reads -/

/-- **Which reads are admitted.** For an accepted configuration and values of the types of the key
columns: a read of keys is admitted exactly if the fields it asks for are in the schema; a query is
admitted exactly if, besides, it asks for less than 1000 items or for one key, its index has a sort key,
and it does not ask for one sort value from behind that value. -/
theorem reads_admitted_iff {config : DynamoDbTableConfig} {schema : PowdrrSchema}
    (hconfig : validateDynamodbConfig schema config = .ok ()) :
    (∀ key projection plan, getItemPlan config key projection = .ok plan →
      KeyTyped schema (primaryKeySchema config) key →
      (Admitted config schema plan ↔
        ∀ field ∈ (normalizedSelect projection).getD [], (schema.toMapGet field).isSome = true)) ∧
    ∀ request prepared, prepareQuery config schema request = .ok prepared →
      request.Typed prepared.target.keySchema schema →
      (Admitted config schema prepared.plan ↔ QueryAdmissible schema request prepared.target prepared.selectMode) :=
  ⟨fun _ _ _ h htyped => admitted_getItem_iff hconfig h htyped, fun _ _ h htyped => admitted_query_iff hconfig h htyped⟩

/-- Orders by customer, with an index by city that has no sort key. -/
def ordersConfig : DynamoDbTableConfig := ⟨"customer", some "placed", [], [⟨"by_city", "city", none⟩]⟩

def ordersSchema : PowdrrSchema := ⟨[⟨"customer", .string⟩, ⟨"placed", .integer⟩, ⟨"city", .string⟩]⟩

def customerOrders (limit : Nat) : QueryRequest := { partitionValue := .string "ada", limit := some limit }

theorem typed_customerOrders (limit : Nat) :
    (customerOrders limit).Typed (primaryKeySchema ordersConfig) ordersSchema where
  partition := ⟨⟨"customer", .string⟩, rfl, rfl⟩
  condition := by simp [customerOrders]
  start := by
    rintro _ _ _ ⟨start, _, hstart, -⟩
    cases hstart

theorem ordersConfig_accepted : validateDynamodbConfig ordersSchema ordersConfig = .ok () := by decide +kernel

/-- 999 orders of a customer are admitted. -/
theorem reads_admitted_iff_orders :
    ∃ prepared, prepareQuery ordersConfig ordersSchema (customerOrders 999) = .ok prepared ∧
      Admitted ordersConfig ordersSchema prepared.plan :=
  ⟨_, rfl, ((reads_admitted_iff ordersConfig_accepted).2 _ _ rfl (typed_customerOrders 999)).mpr
    { projected := by
        intro field hfield
        cases hfield
      limit := Or.inr (by decide)
      sorted := Or.inl rfl
      continues := by
        rintro ⟨_, _, _, -, hcondition, -⟩
        cases hcondition }⟩

def cityOrders : QueryRequest := { indexName := some "by_city", partitionValue := .string "Paris" }

theorem typed_cityOrders : cityOrders.Typed ⟨"city", none⟩ ordersSchema where
  partition := ⟨⟨"city", .string⟩, rfl, rfl⟩
  condition := by simp
  start := by simp

/-- **Reads that are not admitted.** A query for 1000 orders of a customer reads 1001 rows, more than
validation allows; a query on the index by city has no pattern. -/
theorem query_not_admitted : validateDynamodbConfig ordersSchema ordersConfig = .ok () ∧
    (∃ prepared, prepareQuery ordersConfig ordersSchema (customerOrders 1000) = .ok prepared ∧
      (customerOrders 1000).Typed prepared.target.keySchema ordersSchema ∧
      ¬ Admitted ordersConfig ordersSchema prepared.plan) ∧
    ∃ prepared, prepareQuery ordersConfig ordersSchema cityOrders = .ok prepared ∧
      cityOrders.Typed prepared.target.keySchema ordersSchema ∧
      ¬ Admitted ordersConfig ordersSchema prepared.plan := by
  refine ⟨ordersConfig_accepted, ⟨_, rfl, typed_customerOrders 1000, ?_⟩, ⟨_, rfl, typed_cityOrders, ?_⟩⟩
  · intro hadmitted
    obtain ⟨-, hlimit, -, -⟩ := (admitted_query_iff ordersConfig_accepted rfl (typed_customerOrders 1000)).mp hadmitted
    rcases hlimit with ⟨-, hnone | ⟨_, hcondition⟩⟩ | hlimit
    · cases hnone
    · cases hcondition
    · exact absurd hlimit (by decide)
  intro hadmitted
  obtain ⟨-, -, hsorted, -⟩ := (admitted_query_iff ordersConfig_accepted rfl typed_cityOrders).mp hadmitted
  rcases hsorted with hunique | hsome
  · cases hunique
  · exact hsome rfl

end PowdrrEngine
