import PowdrrEngine.DynamoStartKey

/-! The serving patterns of a table and the plans of its queries. The patterns are derived from the keys
and indexes of an accepted configuration, one family for each. A query's plan has the condition on the
partition key and at most one filter on the sort key. -/

namespace PowdrrEngine

open ReadPredicate List Run

variable {keySchema : DynamoDbKeySchemaConfig} {config : DynamoDbTableConfig} {schema : PowdrrSchema}
  {sortFilter : Option ReadPredicate} {request : QueryRequest} {sortKey : String} {indexName : Option String}
  {target : QueryTarget} {filter' filter : ReadPredicate} {startValue : Value}

/-! ### Accepted configurations -/

def dynamodbKeyType (schema : PowdrrSchema) (fieldName : String) : DynamoResult String :=
  match schema.toMapGet fieldName with
  | none => .validation ("Unknown key field " ++ fieldName)
  | some field =>
    match field.dataType with
    | .string => .ok "S"
    | .integer | .float => .ok "N"
    | _ => .validation ("Field " ++ fieldName ++ " is not a valid DynamoDB key type")

def validateKeySchema (schema : PowdrrSchema) (keySchema : DynamoDbKeySchemaConfig) (label : String) :
    DynamoResult Unit := do
  let _ ← dynamodbKeyType schema keySchema.partitionKey
  match keySchema.sortKey with
  | none => .ok ()
  | some sortKey =>
    if sortKey = keySchema.partitionKey then .validation (label ++ " sort_key must differ from partition_key")
    else
      let _ ← dynamodbKeyType schema sortKey
      .ok ()

def validateLocalSecondaryIndex (schema : PowdrrSchema) (config : DynamoDbTableConfig)
    (index : DynamoDbLocalSecondaryIndexConfig) : DynamoResult Unit :=
  if config.sortKey = none then
    .validation ("Local secondary index " ++ index.name ++ " requires the table to declare a sort key")
  else if config.sortKey = some index.sortKey then
    .validation ("Local secondary index " ++ index.name ++ " sort_key must differ from the table sort_key")
  else
    validateKeySchema schema (localSecondaryIndexKeySchema config index)
      ("local secondary index " ++ index.name)

/-- The loop of `validate_dynamodb_config` over the local indexes; the names seen are returned. -/
def validateLocalIndexes (schema : PowdrrSchema) (config : DynamoDbTableConfig) (seen : List String) :
    List DynamoDbLocalSecondaryIndexConfig → DynamoResult (List String)
  | [] => .ok seen
  | index :: indexes =>
    if index.name ∈ seen then .validation ("Duplicate local secondary index name " ++ index.name)
    else do
      validateLocalSecondaryIndex schema config index
      validateLocalIndexes schema config (index.name :: seen) indexes

/-- The loop of `validate_dynamodb_config` over the global indexes. -/
def validateGlobalIndexes (schema : PowdrrSchema) (seen : List String) :
    List DynamoDbGlobalSecondaryIndexConfig → DynamoResult Unit
  | [] => .ok ()
  | index :: indexes =>
    if index.name ∈ seen then .validation ("Duplicate global secondary index name " ++ index.name)
    else do
      validateKeySchema schema (secondaryIndexKeySchema index) ("global secondary index " ++ index.name)
      validateGlobalIndexes schema (index.name :: seen) indexes

def validateDynamodbConfig (schema : PowdrrSchema) (config : DynamoDbTableConfig) : DynamoResult Unit := do
  validateKeySchema schema (primaryKeySchema config) "table"
  let seen ← validateLocalIndexes schema config [] config.localSecondaryIndexes
  validateGlobalIndexes schema seen config.globalSecondaryIndexes

def KeyColumn (schema : PowdrrSchema) (fieldName : String) : Prop :=
  ∃ field, schema.toMapGet fieldName = some field ∧ field.dataType ∈ [.string, .integer, .float]

structure KeySchemaAccepted (schema : PowdrrSchema) (keySchema : DynamoDbKeySchemaConfig) : Prop where
  column : ∀ name ∈ keySchema.fields, KeyColumn schema name
  distinct : ∀ sortKey ∈ keySchema.sortKey, sortKey ≠ keySchema.partitionKey

theorem keyColumn_of_dynamodbKeyType {fieldName attributeType : String}
    (h : dynamodbKeyType schema fieldName = .ok attributeType) : KeyColumn schema fieldName := by
  unfold dynamodbKeyType at h
  split at h
  · cases h
  rename_i field hfield
  refine ⟨field, hfield, ?_⟩
  split at h
  · simp_all
  · simp_all
  · simp_all
  · cases h

theorem keySchemaAccepted_of_validate {label : String} (h : validateKeySchema schema keySchema label = .ok ()) :
    KeySchemaAccepted schema keySchema := by
  obtain ⟨_, hpartition, h⟩ := exists_ok_of_bind h
  have hcolumn := keyColumn_of_dynamodbKeyType hpartition
  cases hsort : keySchema.sortKey with
  | none => exact ⟨by simpa [DynamoDbKeySchemaConfig.fields, hsort] using hcolumn, by simp [hsort]⟩
  | some sortKey =>
    rw [hsort] at h
    dsimp only at h
    split at h
    · cases h
    rename_i hne
    obtain ⟨_, hsortType, -⟩ := exists_ok_of_bind h
    refine ⟨?_, by simpa [hsort] using hne⟩
    simpa [DynamoDbKeySchemaConfig.fields, hsort] using
      ⟨hcolumn, keyColumn_of_dynamodbKeyType hsortType⟩

section

variable {seen : List String}

theorem accepted_of_validateLocalIndexes {seen' : List String} {indexes : List DynamoDbLocalSecondaryIndexConfig}
    (h : validateLocalIndexes schema config seen indexes = .ok seen') :
    ∀ index ∈ indexes, KeySchemaAccepted schema (localSecondaryIndexKeySchema config index) := by
  induction indexes generalizing seen with
  | nil => simp
  | cons index indexes ih =>
    unfold validateLocalIndexes at h
    split at h
    · cases h
    obtain ⟨_, hindex, h⟩ := exists_ok_of_bind h
    refine forall_mem_cons.mpr ⟨?_, ih h⟩
    unfold validateLocalSecondaryIndex at hindex
    split at hindex
    · cases hindex
    · split at hindex
      · cases hindex
      · exact keySchemaAccepted_of_validate hindex

theorem accepted_of_validateGlobalIndexes {indexes : List DynamoDbGlobalSecondaryIndexConfig}
    (h : validateGlobalIndexes schema seen indexes = .ok ()) :
    ∀ index ∈ indexes, KeySchemaAccepted schema (secondaryIndexKeySchema index) := by
  induction indexes generalizing seen with
  | nil => simp
  | cons index indexes ih =>
    unfold validateGlobalIndexes at h
    split at h
    · cases h
    · obtain ⟨_, hindex, h⟩ := exists_ok_of_bind h
      exact forall_mem_cons.mpr ⟨keySchemaAccepted_of_validate hindex, ih h⟩

theorem accepted_of_validateDynamodbConfig (h : validateDynamodbConfig schema config = .ok ()) :
    KeySchemaAccepted schema (primaryKeySchema config) ∧ (∀ index ∈ config.localSecondaryIndexes,
        KeySchemaAccepted schema (localSecondaryIndexKeySchema config index)) ∧
      ∀ index ∈ config.globalSecondaryIndexes, KeySchemaAccepted schema (secondaryIndexKeySchema index) := by
  obtain ⟨_, htable, h⟩ := exists_ok_of_bind h
  obtain ⟨seen, hlocal, hglobal⟩ := exists_ok_of_bind h
  exact ⟨keySchemaAccepted_of_validate htable, accepted_of_validateLocalIndexes hlocal,
    accepted_of_validateGlobalIndexes hglobal⟩

end

/-! ### Derived patterns -/

def dynamodbConfigPatternPrefix : String := "_dynamodb_"

def derivedServingPatternsForKeySchema (start : String) (keySchema : DynamoDbKeySchemaConfig)
    (includeGetItemPattern includeExactQueryPattern : Bool) : List ServingPattern :=
  let pattern (name : String) (eqFields : List String) (rangeField orderField : Option String)
      (descending : Bool) (maxLimit : Option Nat) : ServingPattern :=
    ⟨start ++ name, eqFields, rangeField, orderField, descending, maxLimit, none, none⟩
  let suffix (descending : Bool) : String := if descending then "desc" else "asc"
  (if includeGetItemPattern then [pattern "get_item" keySchema.fields none none false (some 1)] else []) ++
    (if includeExactQueryPattern then
      keySchema.sortKey.toList.map fun _ => pattern "exact_query" keySchema.fields none none false none
    else []) ++
    keySchema.sortKey.toList.flatMap fun sortKey => [false, true].flatMap fun descending =>
      [pattern ("partition_query_" ++ suffix descending) [keySchema.partitionKey] none (some sortKey) descending none,
        pattern ("range_query_" ++ suffix descending) [keySchema.partitionKey] (some sortKey) (some sortKey)
          descending none]

def sanitizeServingPatternSuffix (value : String) : String :=
  String.ofList (value.toList.map fun character =>
    if character.isAlphanum then character else '_')

def derivedDynamodbServingPatterns (config : DynamoDbTableConfig) : List ServingPattern :=
  derivedServingPatternsForKeySchema dynamodbConfigPatternPrefix (primaryKeySchema config) true false ++
    (config.localSecondaryIndexes.flatMap fun index =>
      derivedServingPatternsForKeySchema
        (dynamodbConfigPatternPrefix ++ "lsi_" ++ sanitizeServingPatternSuffix index.name ++ "_")
        (localSecondaryIndexKeySchema config index) false true) ++
    config.globalSecondaryIndexes.flatMap fun index =>
      derivedServingPatternsForKeySchema
        (dynamodbConfigPatternPrefix ++ "gsi_" ++ sanitizeServingPatternSuffix index.name ++ "_")
        (secondaryIndexKeySchema index) false true

section

variable {start : String} {getItem exactQuery : Bool}

theorem mem_derivedServingPatterns_iff {pattern : ServingPattern} :
    pattern ∈ derivedServingPatternsForKeySchema start keySchema getItem exactQuery ↔
      getItem = true ∧ pattern = ⟨start ++ "get_item", keySchema.fields, none, none, false, some 1, none, none⟩ ∨
      exactQuery = true ∧ keySchema.sortKey.isSome = true ∧
        pattern = ⟨start ++ "exact_query", keySchema.fields, none, none, false, none, none, none⟩ ∨
      ∃ sortKey ∈ keySchema.sortKey, ∃ descending : Bool,
        pattern = ⟨start ++ ("partition_query_" ++ if descending then "desc" else "asc"),
          [keySchema.partitionKey], none, some sortKey, descending, none, none, none⟩ ∨
        pattern = ⟨start ++ ("range_query_" ++ if descending then "desc" else "asc"),
          [keySchema.partitionKey], some sortKey, some sortKey, descending, none, none, none⟩ := by
  cases hsort : keySchema.sortKey with
  | none => cases getItem <;> cases exactQuery <;> simp [derivedServingPatternsForKeySchema, hsort]
  | some sortKey =>
    cases getItem <;> cases exactQuery <;>
      simp [derivedServingPatternsForKeySchema, hsort, or_assoc]

end

theorem derived_of_queryTarget (h : queryTarget config indexName = .ok target) :
    ∃ start, ∀ pattern ∈ derivedServingPatternsForKeySchema start target.keySchema target.uniqueLookup
      (!target.uniqueLookup), pattern ∈ derivedDynamodbServingPatterns config := by
  unfold queryTarget at h
  split at h
  · cases h
    exact ⟨_, fun pattern hpattern => mem_append_left _ (mem_append_left _ hpattern)⟩
  split at h
  · rename_i index hindex
    cases h
    exact ⟨_, fun pattern hpattern => mem_append_left _ (mem_append_right _
      (mem_flatMap.mpr ⟨index, mem_of_find?_eq_some hindex, hpattern⟩))⟩
  split at h
  · rename_i index hindex
    cases h
    exact ⟨_, fun pattern hpattern => mem_append_right _
      (mem_flatMap.mpr ⟨index, mem_of_find?_eq_some hindex, hpattern⟩)⟩
  · cases h

theorem accepted_of_queryTarget (hconfig : validateDynamodbConfig schema config = .ok ())
    (h : queryTarget config indexName = .ok target) :
    KeySchemaAccepted schema target.keySchema := by
  obtain ⟨htable, hlocal, hglobal⟩ := accepted_of_validateDynamodbConfig hconfig
  unfold queryTarget at h
  split at h
  · cases h
    exact htable
  split at h
  · rename_i index hindex
    cases h
    exact hlocal index (mem_of_find?_eq_some hindex)
  split at h
  · rename_i index hindex
    cases h
    exact hglobal index (mem_of_find?_eq_some hindex)
  · cases h

/-! ### Filters of one operator -/

/-- An equality or a range. -/
def ReadPredicate.Simple (filter : ReadPredicate) : Prop :=
  filter.inValues = none ∧ (filter.eq.isSome = true ∧ filter.bounds = [] ∨ filter.eq = none ∧ filter.bounds ≠ [])

theorem ReadPredicate.hasRange_iff : filter.hasRange = true ↔ filter.bounds ≠ [] := by
  unfold hasRange bounds
  cases filter.gt <;> cases filter.gte <;> cases filter.lt <;> cases filter.lte <;> simp

theorem SortCondition.simple_predicate (sortKey : String) (condition : SortCondition) :
    (condition.predicate sortKey).Simple := by
  cases condition <;> simp [predicate, ReadPredicate.Simple, bounds]

theorem SortCondition.field_predicate (sortKey : String) (condition : SortCondition) :
    (condition.predicate sortKey).field = sortKey := by
  cases condition <;> rfl

theorem continueFilter_spec {ascending : Bool} (hsimple : filter.Simple)
    (h : continueFilter ascending startValue filter = .ok filter') :
    filter'.field = filter.field ∧ filter'.Simple ∧ (∀ literal ∈ filter'.eq.toList ++ filter'.bounds,
        literal ∈ filter.eq.toList ++ filter.bounds ∨ literal = startValue) ∧
      (filter'.eq.isSome = true ↔ ∃ value, filter.eq = some value ∧ value.jsonEq startValue = false) := by
  obtain ⟨field, eq, inValues, gt, gte, lt, lte⟩ := filter
  obtain ⟨hin, hshape⟩ := hsimple
  cases eq with
  | some value =>
    cases hjson : value.jsonEq startValue with
    | true =>
      simp only [continueFilter, hjson, if_true, Except.ok.injEq] at h
      subst h
      simp_all [ReadPredicate.Simple, bounds]
    | false =>
      simp only [continueFilter, hjson, Bool.false_eq_true, if_false, Except.ok.injEq] at h
      subst h
      simp_all [ReadPredicate.Simple]
  | none =>
    have hrange : filter'.field = field ∧ filter'.inValues = none ∧ filter'.eq = none ∧ filter'.bounds ≠ [] ∧
        ∀ literal ∈ filter'.bounds, literal ∈ gt.toList ++ gte.toList ++ lt.toList ++ lte.toList ∨
          literal = startValue := by
      rcases continueFilter_cases rfl h with ⟨bound, hbound, -, rfl⟩ | ⟨bound, hbound, -, rfl⟩ | ⟨-, -, rfl⟩
      · cases ascending <;> simp_all [bounds, strictBound]
      · cases ascending <;> simp_all [bounds, ReadPredicate.after, inclusiveBound]
        tauto
      · cases ascending <;> simp_all [bounds, ReadPredicate.after]
        tauto
    obtain ⟨hfield, hin', heq, hbounds, hliterals⟩ := hrange
    refine ⟨hfield, ⟨hin', Or.inr ⟨heq, hbounds⟩⟩, ?_, ?_⟩
    · rw [heq]
      exact hliterals
    · rw [heq]
      simp

/-! ### The plan of a query -/

def FitsColumn (schema : PowdrrSchema) (fieldName : String) (value : Value) : Prop :=
  ∃ field, schema.toMapGet fieldName = some field ∧ field.dataType.fits value = true

def ReadPredicate.operands (filter : ReadPredicate) : List Value := filter.eq.toList ++ filter.bounds

namespace QueryRequest

variable (request : QueryRequest) (keySchema : DynamoDbKeySchemaConfig)

def StartsWith (fieldName : String) (value : Value) : Prop :=
  ∃ start attr, request.exclusiveStartKey = some start ∧ start.lookup fieldName = some attr ∧
    dynamodbAttrToJson attr = .ok value

structure Typed (schema : PowdrrSchema) : Prop where
  partition : FitsColumn schema keySchema.partitionKey request.partitionValue
  condition : ∀ sortKey ∈ keySchema.sortKey, ∀ condition ∈ request.sortCondition,
    ∀ value ∈ (condition.predicate sortKey).operands, FitsColumn schema sortKey value
  start : ∀ sortKey ∈ keySchema.sortKey, ∀ value, request.StartsWith sortKey value → FitsColumn schema sortKey value

def Ended : Prop :=
  ∃ sortKey value startValue, keySchema.sortKey = some sortKey ∧
    request.sortCondition = some (.eq value) ∧ request.StartsWith sortKey startValue ∧
    value.jsonEq startValue = true

end QueryRequest

structure SortFilterOf (request : QueryRequest) (keySchema : DynamoDbKeySchemaConfig) (sortIsExactEq : Bool)
    (sortFilter : Option ReadPredicate) : Prop where
  simple : ∀ filter ∈ sortFilter, filter.Simple ∧ keySchema.sortKey = some filter.field
  operands : ∀ filter ∈ sortFilter, ∀ value ∈ filter.operands,
    (∃ condition ∈ request.sortCondition, value ∈ (condition.predicate filter.field).operands) ∨
      request.StartsWith filter.field value
  exact : sortIsExactEq = true ↔ ∃ value, request.sortCondition = some (.eq value)
  ended : sortIsExactEq = true → ∃ filter, sortFilter = some filter ∧
    (filter.eq.isSome = true ↔ ¬ request.Ended keySchema)
  range : sortIsExactEq = false → ∀ filter ∈ sortFilter, filter.eq = none

theorem SortCondition.eq_predicate {condition : SortCondition} :
    (condition.predicate sortKey).eq.isSome = true ↔ ∃ value, condition = .eq value := by
  cases condition <;> simp [predicate]

theorem field_of_parseSortFilter {condition : Option SortCondition} (hsort : keySchema.sortKey = some sortKey)
    (h : parseSortFilter keySchema condition = .ok sortFilter) : ∀ filter ∈ sortFilter, filter.field = sortKey := by
  intro filter hfilter
  unfold parseSortFilter at h
  rw [hsort] at h
  cases condition with
  | none =>
    cases h
    cases hfilter
  | some condition =>
    cases h
    cases hfilter
    exact condition.field_predicate sortKey

theorem sortFilterOf_parseSortFilter (h : parseSortFilter keySchema request.sortCondition = .ok sortFilter)
    (hend : ¬ request.Ended keySchema) :
    SortFilterOf request keySchema (sortFilter.any fun filter => filter.eq.isSome) sortFilter := by
  unfold parseSortFilter at h
  split at h
  · rename_i hcondition
    cases h
    exact ⟨by simp, by simp, by simp [hcondition], by simp, by simp⟩
  · cases h
  rename_i sortKey condition hsort hcondition
  cases h
  have hfield := condition.field_predicate sortKey
  refine ⟨?_, ?_, ?_, ?_, ?_⟩
  · rintro filter ⟨⟩
    exact ⟨condition.simple_predicate sortKey, by rw [hsort, hfield]⟩
  · rintro filter ⟨⟩ value hvalue
    exact Or.inl ⟨condition, hcondition, by rwa [hfield]⟩
  · simp [hcondition, SortCondition.eq_predicate]
  · intro hexact
    exact ⟨_, rfl, iff_of_true hexact hend⟩
  · simp

theorem sortFilterOf_continuedSortFilter (hsort : keySchema.sortKey = some sortKey)
    (hstart : request.StartsWith sortKey startValue)
    (hparse : parseSortFilter keySchema request.sortCondition = .ok sortFilter)
    (h : continuedSortFilter sortKey request.ascending startValue sortFilter = .ok filter') :
    SortFilterOf request keySchema (sortFilter.any fun filter => filter.eq.isSome) (some filter') := by
  cases hcondition : request.sortCondition with
  | none =>
    rw [hcondition, parseSortFilter] at hparse
    cases hparse
    cases h
    have hfield : (startPredicate sortKey request.ascending startValue).field = sortKey := by
      unfold startPredicate
      split <;> rfl
    refine ⟨?_, ?_, by simp [hcondition], by simp, ?_⟩
    · rintro filter ⟨⟩
      refine ⟨?_, by rw [hsort, hfield]⟩
      cases request.ascending <;> simp [startPredicate, ReadPredicate.Simple, bounds]
    · rintro filter ⟨⟩ value hvalue
      right
      rw [hfield]
      have hvalue' : value = startValue := by
        revert hvalue
        cases request.ascending <;>
          simp [startPredicate, operands, bounds]
      rwa [hvalue']
    · rintro - filter ⟨⟩
      cases request.ascending <;> rfl
  | some condition =>
    simp only [parseSortFilter, hcondition, hsort] at hparse
    cases hparse
    have hfield := condition.field_predicate sortKey
    obtain ⟨hfield', hsimple, hoperands, heq⟩ := continueFilter_spec (condition.simple_predicate sortKey) h
    rw [hfield] at hfield'
    refine ⟨?_, ?_, ?_, ?_, ?_⟩
    · rintro filter ⟨⟩
      exact ⟨hsimple, by rw [hsort, hfield']⟩
    · rintro filter ⟨⟩ value hvalue
      rw [hfield']
      rcases hoperands value hvalue with hvalue | rfl
      · exact Or.inl ⟨condition, hcondition, hvalue⟩
      · exact Or.inr hstart
    · simp [hcondition, SortCondition.eq_predicate]
    · intro hexact
      refine ⟨filter', rfl, heq.trans ?_⟩
      obtain ⟨value, rfl⟩ := SortCondition.eq_predicate.mp hexact
      have hiff : (∃ v, (SortCondition.predicate sortKey (.eq value)).eq = some v ∧
          v.jsonEq startValue = false) ↔ value.jsonEq startValue = false := by
        simp [SortCondition.predicate]
      rw [hiff]
      constructor
      · rintro hfalse ⟨sortKey', value', startValue', hsort', hcondition', hstart', hjson⟩
        obtain rfl : sortKey = sortKey' := Option.some.inj (hsort.symm.trans hsort')
        obtain ⟨start, attr, hkey, hattr, hvalue⟩ := hstart
        obtain ⟨start', attr', hkey', hattr', hvalue'⟩ := hstart'
        cases hkey.symm.trans hkey'
        cases hattr.symm.trans hattr'
        cases hvalue.symm.trans hvalue'
        obtain rfl : value = value' := by simpa using hcondition.symm.trans hcondition'
        rw [hfalse] at hjson
        cases hjson
      · intro hnot
        by_contra hjson
        exact hnot ⟨sortKey, value, startValue, hsort, hcondition, hstart, by simpa using hjson⟩
    · rintro hexact filter ⟨⟩
      have hnone : (condition.predicate sortKey).eq = none := by simpa using hexact
      cases hfilter : filter'.eq with
      | none => rfl
      | some value =>
        obtain ⟨v, hv, -⟩ := heq.mp (by rw [hfilter]; rfl)
        rw [hnone] at hv
        cases hv

def PreparedQuery.planWith (prepared : PreparedQuery) (schema : PowdrrSchema) (request : QueryRequest)
    (sortFilter : Option ReadPredicate) : ReadPlan where
  select := querySelectFields (queryRequestedProjection request.projection prepared.selectMode) request.filter
    prepared.target.keySchema schema
  filters := queryFilters prepared.target.keySchema request.partitionValue sortFilter
  orderBy := queryOrder prepared.target.keySchema prepared.sortIsExactEq request.ascending
  limit := some (queryFetchLimit request.pageLimit prepared.sortIsExactEq
    (decide (prepared.target.keySchema.sortKey = none)) prepared.target.uniqueLookup)

/-- **The plan of a query.** The condition on the partition key, at most one filter on the sort key, and
the rest as the target and the condition have it. -/
theorem prepareQuery_spec {prepared : PreparedQuery} (h : prepareQuery config schema request = .ok prepared)
    (haccepted : KeySchemaAccepted schema prepared.target.keySchema) :
    queryTarget config request.indexName = .ok prepared.target ∧
    ∃ sortFilter, SortFilterOf request prepared.target.keySchema prepared.sortIsExactEq sortFilter ∧
      prepared.plan = prepared.planWith schema request sortFilter := by
  obtain ⟨target, htarget, h⟩ := exists_ok_of_bind h
  obtain ⟨_, -, h⟩ := exists_ok_of_bind h
  obtain ⟨selectMode, -, h⟩ := exists_ok_of_bind h
  obtain ⟨sortFilter, hsortFilter, h⟩ := exists_ok_of_bind h
  obtain ⟨filters, hfilters, h⟩ := exists_ok_of_bind h
  cases h
  refine ⟨htarget, ?_⟩
  unfold continuedFilters at hfilters
  cases hkey : request.exclusiveStartKey with
  | none =>
    rw [hkey] at hfilters
    cases hfilters
    refine ⟨sortFilter, sortFilterOf_parseSortFilter hsortFilter ?_, rfl⟩
    rintro ⟨_, _, _, -, -, ⟨_, _, hstart, -⟩, -⟩
    rw [hkey] at hstart
    cases hstart
  | some start =>
    rw [hkey] at hfilters
    rcases Option.eq_none_or_eq_some target.keySchema.sortKey with hsort | ⟨sortKey, hsort⟩
    · -- without a sort key the start key is not looked at
      dsimp only at hfilters
      rw [applyExclusiveStartKey, hsort] at hfilters
      cases hfilters
      refine ⟨sortFilter, sortFilterOf_parseSortFilter hsortFilter ?_, rfl⟩
      rintro ⟨_, _, _, hsome, -⟩
      rw [hsort] at hsome
      cases hsome
    obtain ⟨parsed, _, _, startValue, hparsed, -, -, -, hvalue, hcontinue⟩ :=
      applyExclusiveStartKey_eq_ok hsort hfilters
    have hne : target.keySchema.partitionKey ≠ sortKey := (haccepted.distinct sortKey hsort).symm
    rw [continueFilters_queryFilters hne (field_of_parseSortFilter hsort hsortFilter)] at hcontinue
    obtain ⟨filter', hfilter', rfl⟩ := map_eq_ok.mp hcontinue
    have hmem : sortKey ∈ orderedKeyFields target.keySchema (primaryKeySchema config) :=
      mem_orderedKeyFields (by simp [DynamoDbKeySchemaConfig.fields, hsort])
    obtain ⟨attr, v, hattr, hv, hlookup⟩ := lookup_parseExclusiveStartKeyMap hparsed hmem
    cases hvalue.symm.trans hlookup
    refine ⟨some filter', sortFilterOf_continuedSortFilter hsort ⟨start, attr, hkey, hattr, hv⟩
      hsortFilter hfilter', rfl⟩

end PowdrrEngine
