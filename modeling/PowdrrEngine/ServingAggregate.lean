import PowdrrEngine.ContractSchema
import PowdrrEngine.ServingPlan

/-! Aggregate requests: the functions of a measure, its alias, and the checks that a request passes before it
is planned. -/

namespace PowdrrEngine

inductive StatusCode where
  | badRequest
  deriving DecidableEq

structure ServingQueryError where
  status : StatusCode
  message : String
  deriving DecidableEq

def ServingQueryError.new (status : StatusCode) (message : String) : ServingQueryError := ⟨status, message⟩

inductive AggregateFunction where
  | count
  | sum
  | avg
  | min
  | max
  deriving DecidableEq

namespace AggregateFunction

def name : AggregateFunction → String
  | .count => "count"
  | .sum => "sum"
  | .avg => "avg"
  | .min => "min"
  | .max => "max"

/-- `to_uppercase` of the name. -/
def upperName : AggregateFunction → String
  | .count => "COUNT"
  | .sum => "SUM"
  | .avg => "AVG"
  | .min => "MIN"
  | .max => "MAX"

end AggregateFunction

def toAsciiLowercase (text : String) : String := String.ofList (text.toList.map Char.toLower)

def normalizedAggregateFunction (function : String) : Option AggregateFunction :=
  match toAsciiLowercase function with
  | "count" => some .count
  | "sum" => some .sum
  | "avg" => some .avg
  | "min" => some .min
  | "max" => some .max
  | _ => none

namespace ServingAggregateMeasure

variable (measure : ServingAggregateMeasure)

def normalizedFunction : Except ServingQueryError AggregateFunction :=
  match normalizedAggregateFunction measure.function with
  | some function => .ok function
  | none => .error (.new .badRequest ("Unsupported aggregate function " ++ measure.function))

def requiredField (function : AggregateFunction) : Except ServingQueryError String :=
  match measure.field with
  | some field => .ok field
  | none => .error (.new .badRequest (function.upperName ++ " serving measures require a field"))

/-- `aggregate_measure_alias_with_function`. -/
def aggregateMeasureAlias (function : AggregateFunction) : Except ServingQueryError String :=
  match measure.measureAlias with
  | some measureAlias =>
    if measureAlias = "" then .error (.new .badRequest "Aggregate measure aliases must not be empty")
    else .ok measureAlias
  | none =>
    match function with
    | .count => .ok "count"
    | function => do
      let field ← measure.requiredField function
      .ok (function.name ++ "_" ++ field)

end ServingAggregateMeasure

/-! ### Validation -/

def validateScalarServingFieldType (dataType : PowdrrDataType) (fieldName : String) : Except ServingQueryError Unit :=
  match dataType with
  | .boolean | .float | .integer | .string => .ok ()
  | .object _ | .array _ | .null =>
    .error (.new .badRequest ("Field " ++ fieldName ++ " is not supported by the serving MVP"))

/-- The loop of `validate_aggregate_request` over the grouping fields. -/
def validateGroupBy (schema : PowdrrSchema) (seen : List String) : List String → Except ServingQueryError Unit
  | [] => .ok ()
  | fieldName :: groupBy =>
    if fieldName ∈ seen then
      .error (.new .badRequest ("Duplicate aggregate GROUP BY field " ++ fieldName))
    else
      match schema.toMapGet fieldName with
      | none => .error (.new .badRequest ("Unknown aggregate GROUP BY field " ++ fieldName))
      | some field => do
        validateScalarServingFieldType field.dataType fieldName
        validateGroupBy schema (fieldName :: seen) groupBy

def validateMeasureField (schema : PowdrrSchema) (measure : ServingAggregateMeasure)
    (function : AggregateFunction) : Except ServingQueryError Unit :=
  match function with
  | .count =>
    if measure.field.isSome then
      .error (.new .badRequest "COUNT serving measures do not take a field")
    else .ok ()
  | function => do
    let fieldName ← measure.requiredField function
    match schema.toMapGet fieldName with
    | none => .error (.new .badRequest ("Unknown aggregate field " ++ fieldName))
    | some field =>
      validateScalarServingFieldType field.dataType fieldName
      if (function = .sum ∨ function = .avg) ∧ field.dataType ≠ .float ∧ field.dataType ≠ .integer then
        .error (.new .badRequest (function.upperName ++ " aggregate field " ++ fieldName ++ " must be numeric"))
      else .ok ()

/-- The loop of `validate_aggregate_request` over the measures. -/
def validateMeasures (schema : PowdrrSchema) (seenAliases : List String)
    (seenSignatures : List (AggregateFunction × Option String)) :
    List ServingAggregateMeasure → Except ServingQueryError Unit
  | [] => .ok ()
  | measure :: measures => do
    let function ← measure.normalizedFunction
    let measureAlias ← measure.aggregateMeasureAlias function
    if measureAlias ∈ seenAliases then
      .error (.new .badRequest "Aggregate measure aliases must be unique")
    else if (function, measure.field) ∈ seenSignatures then
      .error (.new .badRequest "Duplicate aggregate measures are not supported")
    else
      validateMeasureField schema measure function
      validateMeasures schema (measureAlias :: seenAliases) ((function, measure.field) :: seenSignatures)
        measures

def validateAggregateRequest (aggregate : ServingAggregateSpec) (schema : PowdrrSchema) :
    Except ServingQueryError Unit := do
  if aggregate.measures = [] then
    .error (.new .badRequest "Aggregate serving queries must declare at least one measure")
  else
    validateGroupBy schema [] aggregate.groupBy
    validateMeasures schema [] [] aggregate.measures

end PowdrrEngine
