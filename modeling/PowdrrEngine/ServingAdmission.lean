import PowdrrEngine.LibRun
import PowdrrEngine.ServingAggregate
import PowdrrEngine.ServingTopK

/-! The admission of serving requests. A request is validated against the schema of its table and then
held against the declared patterns; one that matches a pattern is served on the fast path. -/

namespace PowdrrEngine

open Run List

variable {dataType : PowdrrDataType} {schema : PowdrrSchema}

/-- A check that returns an error where it fails. -/
def requireThat (condition : Prop) [Decidable condition] (message : String) : Except ServingQueryError Unit :=
  if condition then .ok () else .error (.new .badRequest message)

@[simp] theorem requireThat_eq_ok {condition : Prop} [Decidable condition] {message : String} :
    requireThat condition message = .ok () ↔ condition := by
  unfold requireThat
  split <;> simp_all

/-! ### Literals -/

namespace PowdrrDataType

/-- A literal of the kind that a column is compared with. -/
def fits : PowdrrDataType → Value → Bool
  | .boolean, .bool _ => true
  | .float, .number _ | .integer, .number _ => true
  | .string, .string _ => true
  | _, _ => false

/-- What a literal for a column has to be; none for columns that are not served. -/
def literalName : PowdrrDataType → Option String
  | .boolean => some "boolean"
  | .float | .integer => some "numeric"
  | .string => some "string"
  | .object _ | .array _ | .null => none

end PowdrrDataType

def validateLiteral (value : Value) (dataType : PowdrrDataType) (fieldName : String) : Except ServingQueryError Unit :=
  match dataType.literalName with
  | some name =>
    requireThat (dataType.fits value) ("Field " ++ fieldName ++ " expects a " ++ name ++ " literal")
  | none => .error (.new .badRequest ("Field " ++ fieldName ++ " is not supported by the serving MVP"))

theorem validateLiteral_eq_ok {value : Value} {fieldName : String} :
    validateLiteral value dataType fieldName = .ok () ↔ dataType.fits value = true := by
  unfold validateLiteral
  cases hname : dataType.literalName with
  | some name => exact requireThat_eq_ok
  | none => cases dataType <;> simp_all [PowdrrDataType.literalName, PowdrrDataType.fits]

/-! ### Filters -/

namespace ReadPredicate

variable (filter : ReadPredicate)

def eqLike : Nat := filter.eq.toList.length + filter.inValues.toList.length

/-- The bounds of a range. -/
def bounds : List Value := filter.gt.toList ++ filter.gte.toList ++ filter.lt.toList ++ filter.lte.toList

end ReadPredicate

/-- The `in` list of `validate_filter`. -/
def validateInValues (filter : ReadPredicate) (dataType : PowdrrDataType) : Except ServingQueryError Unit :=
  match filter.inValues with
  | none => .ok ()
  | some values => do
    requireThat (values ≠ [] ∧ values.length ≤ maxInValues)
      ("IN filter for " ++ filter.field ++ " must have 1-32 values")
    values.forM fun value => validateLiteral value dataType filter.field

def validateFilter (filter : ReadPredicate) (dataType : PowdrrDataType) : Except ServingQueryError Unit := do
  requireThat (filter.eqLike ≠ 0 ∨ filter.bounds ≠ []) ("Filter for " ++ filter.field ++ " has no operator")
  requireThat (filter.eqLike ≤ 1 ∧ (filter.eqLike = 0 ∨ filter.bounds = []))
    ("Filter for " ++ filter.field ++ " mixes incompatible operators")
  validateInValues filter dataType
  filter.eq.toList.forM fun value => validateLiteral value dataType filter.field
  filter.bounds.forM fun value => validateLiteral value dataType filter.field

theorem validateFilter_eq_ok {filter : ReadPredicate} (hin : filter.inValues = none) :
    validateFilter filter dataType = .ok () ↔
      (filter.eq.isSome = true ∧ filter.bounds = [] ∨ filter.eq = none ∧ filter.bounds ≠ []) ∧
        (∀ value ∈ filter.eq, dataType.fits value = true) ∧ ∀ value ∈ filter.bounds, dataType.fits value = true := by
  have hcount : filter.eqLike = filter.eq.toList.length := by simp [ReadPredicate.eqLike, hin]
  simp only [validateFilter, validateInValues, hin, hcount, check_eq_ok, forM_eq_forM, forM_eq_ok,
    validateLiteral_eq_ok, requireThat_eq_ok, Option.mem_toList, Option.mem_def]
  cases filter.eq with
  | none => simp
  | some value => simp

/-! ### Requests -/

/-- The loop of `validate_request` over the filters. -/
def validateFilters (schema : PowdrrSchema) (seenFilterFields : List String) :
    List ReadPredicate → Except ServingQueryError Unit
  | [] => .ok ()
  | filter :: filters => do
    requireThat (filter.field ∉ seenFilterFields) "Duplicate filters on the same field are not supported"
    match schema.toMapGet filter.field with
    | none => .error (.new .badRequest ("Unknown filter field " ++ filter.field))
    | some field =>
      validateFilter filter field.dataType
      validateFilters schema (filter.field :: seenFilterFields) filters

variable (request : ReadPlan)

/-- The checks of `validate_request` on an aggregate beside other parts of the request. -/
def validateAggregateShape : Except ServingQueryError Unit :=
  if request.aggregate.isSome then do
    requireThat (request.select = none) "Aggregate serving queries do not support select"
    requireThat (request.orderBy = []) "Aggregate serving queries do not support ORDER BY yet"
  else .ok ()

def validateRequest (schema : PowdrrSchema) : Except ServingQueryError Unit := do
  requireThat (request.orderBy.length ≤ 1) "Only one ORDER BY field is supported in the serving MVP"
  ((normalizedSelect request.select).getD []).forM fun field =>
    requireThat ((schema.toMapGet field).isSome) ("Unknown select field " ++ field)
  validateAggregateShape request
  request.orderBy.forM fun sort =>
    requireThat ((schema.toMapGet sort.field).isSome) ("Unknown sort field " ++ sort.field)
  validateFilters schema [] request.filters
  request.aggregate.toList.forM fun aggregate => validateAggregateRequest aggregate schema
  requireThat (request.limit.getD defaultLimit ≤ maxLimit) "Limit must be <= 1000"

theorem validateFilters_eq_ok {seen : List String} {filters : List ReadPredicate} :
    validateFilters schema seen filters = .ok () ↔
      (filters.map (·.field)).Nodup ∧ (∀ filter ∈ filters, filter.field ∉ seen) ∧
        ∀ filter ∈ filters, ∃ field, schema.toMapGet filter.field = some field ∧
          validateFilter filter field.dataType = .ok () := by
  induction filters generalizing seen with
  | nil => simp [validateFilters]
  | cons filter filters ih =>
    cases hfield : schema.toMapGet filter.field with
    | none => simp [validateFilters, check_eq_ok, hfield]
    | some field =>
      simp only [validateFilters, check_eq_ok, requireThat_eq_ok, hfield, ih, map_cons, nodup_cons, mem_map, mem_cons]
      grind

theorem validateRequest_eq_ok {request : ReadPlan} (h : request.aggregate = none) :
    validateRequest request schema = .ok () ↔ request.orderBy.length ≤ 1 ∧
        (∀ field ∈ (normalizedSelect request.select).getD [], (schema.toMapGet field).isSome = true) ∧
        (∀ sort ∈ request.orderBy, (schema.toMapGet sort.field).isSome = true) ∧
        (request.filters.map (·.field)).Nodup ∧
        (∀ filter ∈ request.filters, ∃ field, schema.toMapGet filter.field = some field ∧
          validateFilter filter field.dataType = .ok ()) ∧
        request.limit.getD defaultLimit ≤ maxLimit := by
  simp [validateRequest, validateAggregateShape, h, check_eq_ok, forM_eq_ok, validateFilters_eq_ok, and_assoc]

/-! ### Patterns -/

def aggregateSpecsMatch (request pattern : Option ServingAggregateSpec) : Bool :=
  match request, pattern with
  | none, none => true
  | some request, some pattern =>
    request.groupBy = pattern.groupBy && request.measures.length = pattern.measures.length &&
      (request.measures.zip pattern.measures).all fun (left, right) =>
        match normalizedAggregateFunction left.function, normalizedAggregateFunction right.function with
        | some leftFunction, some rightFunction => leftFunction = rightFunction && left.field = right.field
        | _, _ => false
  | _, _ => false

namespace ServingPattern

variable (pattern : ServingPattern)

def covers (request : ReadPlan) : Bool :=
  match normalizedSelect request.select, pattern.projection with
  | some selectFields, some projection => selectFields.all fun field => field ∈ projection
  | _, _ => request.select.isSome || pattern.projection.isNone

def orders (request : ReadPlan) : Bool :=
  match pattern.orderField with
  | some orderField =>
    request.orderBy.head?.any fun sort => sort.field = orderField && sort.descending = pattern.descending
  | none => request.orderBy = []

def allows (filter : ReadPredicate) : Bool :=
  (!filter.hasEq || decide (filter.field ∈ pattern.eqFields)) &&
    (!filter.hasRange || decide (pattern.rangeField = some filter.field))

end ServingPattern

def requestMatchesPattern (pattern : ServingPattern) (limit : Nat) : Bool :=
  let seen (field : String) : Bool := request.filters.any fun filter => filter.field = field
  (pattern.maxLimit.all fun maxLimit => decide (limit ≤ maxLimit)) && pattern.covers request &&
    aggregateSpecsMatch request.aggregate pattern.aggregate && pattern.orders request &&
    request.filters.all pattern.allows && pattern.eqFields.all seen && pattern.rangeField.all seen

theorem requestMatchesPattern_iff {request : ReadPlan} {pattern : ServingPattern} {limit : Nat} :
    requestMatchesPattern request pattern limit = true ↔
      (∀ maxLimit ∈ pattern.maxLimit, limit ≤ maxLimit) ∧ pattern.covers request = true ∧
        aggregateSpecsMatch request.aggregate pattern.aggregate = true ∧ pattern.orders request = true ∧
        (∀ filter ∈ request.filters, pattern.allows filter = true) ∧
        (∀ field ∈ pattern.eqFields, ∃ filter ∈ request.filters, filter.field = field) ∧
        ∀ field ∈ pattern.rangeField, ∃ filter ∈ request.filters, filter.field = field := by
  simp [requestMatchesPattern, Option.all_eq_true, and_assoc]

end PowdrrEngine
