import PowdrrEngine.DynamoValue
import PowdrrEngine.ServingExactOrder
import Mathlib.Data.List.Infix

/-! Filter and condition expressions, as trees, and their value on an item. An attribute that is null
counts as missing, and a comparison of values that cannot be compared is false. Equality and the other
comparisons look at an operand in two ways, which agree on most values. -/

namespace PowdrrEngine

inductive FilterOperand where
  | field (fieldName : String)
  | size (fieldName : String)
  deriving DecidableEq

inductive FilterPredicateKind where
  | eq (expected : Value)
  | in (expectedValues : List Value)
  | gt (expected : Value)
  | gte (expected : Value)
  | lt (expected : Value)
  | lte (expected : Value)
  | between (start finish : Value)
  | beginsWith (head : String)
  | contains (expected : Value)
  | attributeExists
  | attributeNotExists
  | attributeType (expected : String)
  deriving DecidableEq

structure FilterPredicate where
  operand : FilterOperand
  kind : FilterPredicateKind
  deriving DecidableEq

inductive FilterNode where
  | predicate (predicate : FilterPredicate)
  | and (nodes : List FilterNode)
  | or (nodes : List FilterNode)
  | not (node : FilterNode)

def FilterOperand.fieldName : FilterOperand → String
  | .field fieldName => fieldName
  | .size fieldName => fieldName

/-! ### Values -/

/-- The markers of sets, in the order in which an object is searched for them. -/
def setMarkers : List String := [dynamodbStringSetMarker, dynamodbNumberSetMarker, dynamodbBinarySetMarker]

/-- The array under the first marker of a set that an object has one for. -/
def markedArray (members : List (String × Value)) : Option (String × List Value) :=
  setMarkers.findSome? fun marker =>
    ((members.lookup marker).bind Value.asArray).map fun items => (marker, items)

def filterValueContains (value expected : Value) : Bool :=
  match value with
  | .string text => expected.asStr.any fun expected => expected.toList <:+: text.toList
  | .array values => values.any fun candidate => candidate.jsonEq expected
  | .object members => (markedArray members).any fun (_, values) =>
    values.any fun candidate => candidate.jsonEq expected
  | _ => false

def filterValueTypeName : Value → String
  | .null => "NULL"
  | .bool _ => "BOOL"
  | .number _ => "N"
  | .string _ => "S"
  | .array _ => "L"
  | .object members =>
    if (members.lookup dynamodbBinaryMarker).isSome then "B"
    else if (members.lookup dynamodbStringSetMarker).isSome then "SS"
    else if (members.lookup dynamodbNumberSetMarker).isSome then "NS"
    else if (members.lookup dynamodbBinarySetMarker).isSome then "BS"
    else "M"

/-- `filter_value_size`: bytes of a text, members of anything else. -/
def filterValueSize : Value → Option Nat
  | .string text => some text.utf8ByteSize
  | .array values => some values.length
  | .object members =>
    match markedArray members with
    | some (_, values) => some values.length
    | none =>
      match (members.lookup dynamodbBinaryMarker).bind Value.asStr with
      | some binary => some binary.utf8ByteSize
      | none => some members.length
  | _ => none

/-! ### Evaluation -/

variable (object : JsonMap)

def filterOperandValue : FilterOperand → Option Value
  | .field fieldName => visibleObjectValue object fieldName
  | .size _ => none

def filterOperandScalar : FilterOperand → Option Value
  | .field fieldName => visibleObjectValue object fieldName
  | .size fieldName =>
    (visibleObjectValue object fieldName).bind fun value =>
      (filterValueSize value).map fun size => .number (.posInt size)

variable (operand : FilterOperand) (expected : Value)

/-- The three comparisons with an operand: a missing operand and values that cannot be compared give
false. -/
def compareOperand (test : Ordering → Bool) : Bool :=
  match filterOperandScalar object operand with
  | none => false
  | some value =>
    match compareScalars value expected with
    | .ok ordering => test ordering
    | .error _ => false

def compareFilterOperand (desired : Ordering) : Bool :=
  compareOperand object operand expected fun ordering => ordering = desired

def compareFilterOperandAtLeast : Bool := compareOperand object operand expected fun ordering => ordering ≠ .lt

def compareFilterOperandAtMost : Bool := compareOperand object operand expected fun ordering => ordering ≠ .gt

/-- `evaluate_filter_predicate`; it has no error of its own. -/
def evaluateFilterPredicate (predicate : FilterPredicate) : Bool :=
  match predicate.kind with
  | .attributeExists => (visibleObjectValue object predicate.operand.fieldName).isSome
  | .attributeNotExists => (visibleObjectValue object predicate.operand.fieldName).isNone
  | .attributeType expected =>
    (filterOperandValue object predicate.operand).any fun value => filterValueTypeName value = expected
  | .contains expected =>
    (filterOperandValue object predicate.operand).any fun value => filterValueContains value expected
  | .beginsWith head =>
    (filterOperandValue object predicate.operand).any fun value =>
      value.asStr.any fun text => head.toList <+: text.toList
  | .eq expected => (filterOperandValue object predicate.operand).any fun value => value.jsonEq expected
  | .in expectedValues =>
    (filterOperandValue object predicate.operand).any fun value =>
      expectedValues.any fun expected => expected.jsonEq value
  | .gt expected => compareFilterOperand object predicate.operand expected .gt
  | .gte expected => compareFilterOperandAtLeast object predicate.operand expected
  | .lt expected => compareFilterOperand object predicate.operand expected .lt
  | .lte expected => compareFilterOperandAtMost object predicate.operand expected
  | .between start finish =>
    compareFilterOperandAtLeast object predicate.operand start &&
      compareFilterOperandAtMost object predicate.operand finish

mutual

def evaluateFilterNode (object : JsonMap) : FilterNode → Bool
  | .predicate predicate => evaluateFilterPredicate object predicate
  | .and nodes => evaluateAll object nodes
  | .or nodes => evaluateAny object nodes
  | .not node => !evaluateFilterNode object node
termination_by structural node => node

def evaluateAll (object : JsonMap) : List FilterNode → Bool
  | [] => true
  | node :: nodes => evaluateFilterNode object node && evaluateAll object nodes
termination_by structural nodes => nodes

def evaluateAny (object : JsonMap) : List FilterNode → Bool
  | [] => false
  | node :: nodes => evaluateFilterNode object node || evaluateAny object nodes
termination_by structural nodes => nodes

end

def applyFilterExpression (rows : List JsonMap) (expression : Option FilterNode) : List JsonMap :=
  match expression with
  | none => rows
  | some expression => rows.filter fun row => evaluateFilterNode row expression

/-- `condition_matches`: a condition on a missing item is evaluated on the item without attributes. -/
def conditionMatches (item : Option JsonMap) (expression : Option FilterNode) : Bool :=
  match expression with
  | none => true
  | some expression => evaluateFilterNode (item.getD ∅) expression

/-! ### Comparisons with a literal -/

/-- A string or an integer that an operand is compared with. -/
inductive FilterLiteral where
  | text (text : String)
  | int (n : Int)

def FilterLiteral.value : FilterLiteral → Value
  | .text s => .string s
  | .int n => .int n

section

variable {object : JsonMap} {operand : FilterOperand} {literal : FilterLiteral} {value : Value}

/-- How an operand compares with a value, where it can be compared. -/
def operandOrder (object : JsonMap) (operand : FilterOperand) (expected : Value) : Option Ordering :=
  (filterOperandScalar object operand).bind fun value => compareScalarValues value expected

theorem compareOperand_eq (test : Ordering → Bool) :
    compareOperand object operand value test = (operandOrder object operand value).any test := by
  unfold compareOperand operandOrder compareScalars
  cases filterOperandScalar object operand with
  | none => rfl
  | some scalar => cases h : compareScalarValues scalar value <;> simp [DynamoResult.ofOption, h]

theorem FilterLiteral.jsonEq_iff : (value.jsonEq literal.value = true ↔ value = literal.value) ∧
    (literal.value.jsonEq value = true ↔ value = literal.value) := by
  cases literal with
  | text s => cases value <;> simp [FilterLiteral.value, Value.jsonEq, eq_comm]
  | int n =>
    cases n <;> cases value with
    | number m => cases m <;> simp [FilterLiteral.value, Value.int, Value.jsonEq, Number.jsonEq, eq_comm]
    | _ => simp [FilterLiteral.value, Value.int, Value.jsonEq]

theorem FilterLiteral.compare_self : compareScalarValues literal.value literal.value = some .eq := by
  cases literal with
  | text s => exact congrArg some Std.ReflCmp.compare_self
  | int n => cases n <;> exact congrArg some Std.ReflCmp.compare_self

theorem evaluate_eq_iff : evaluateFilterPredicate object ⟨operand, .eq literal.value⟩ = true ↔
    filterOperandValue object operand = some literal.value := by
  rw [evaluateFilterPredicate, Option.any_eq_true]
  simp [FilterLiteral.jsonEq_iff.1]

theorem evaluate_in (literals : List FilterLiteral) :
    evaluateFilterPredicate object ⟨operand, .in (literals.map FilterLiteral.value)⟩ =
      literals.any fun literal => evaluateFilterPredicate object ⟨operand, .eq literal.value⟩ := by
  have hin : evaluateFilterPredicate object ⟨operand, .in (literals.map FilterLiteral.value)⟩ = true ↔
      ∃ value, filterOperandValue object operand = some value ∧ ∃ literal ∈ literals, value = literal.value := by
    simp [evaluateFilterPredicate, Option.any_eq_true, FilterLiteral.jsonEq_iff.2]
  rw [Bool.eq_iff_iff, hin, List.any_eq_true]
  simp only [evaluate_eq_iff]
  constructor
  · rintro ⟨_, hvalue, literal, hliteral, rfl⟩
    exact ⟨literal, hliteral, hvalue⟩
  · rintro ⟨literal, hliteral, hvalue⟩
    exact ⟨_, hvalue, literal, hliteral, rfl⟩

theorem operandOrder_of_eq (h : filterOperandValue object operand = some literal.value) :
    operandOrder object operand literal.value = some .eq := by
  cases operand with
  | size _ => cases h
  | field fieldName =>
    have hscalar : filterOperandScalar object (.field fieldName) = some literal.value := h
    rw [operandOrder, hscalar, Option.bind_some, FilterLiteral.compare_self]

/-- The laws between the comparisons of an operand with literals. -/
structure CoherentComparisons (object : JsonMap) (operand : FilterOperand) (low literal : FilterLiteral)
    (literals : List FilterLiteral) : Prop where
  eq : evaluateFilterPredicate object ⟨operand, .eq literal.value⟩ =
    (evaluateFilterPredicate object ⟨operand, .lte literal.value⟩ &&
      evaluateFilterPredicate object ⟨operand, .gte literal.value⟩)
  lt : evaluateFilterPredicate object ⟨operand, .lt literal.value⟩ =
    (evaluateFilterPredicate object ⟨operand, .lte literal.value⟩ &&
      !evaluateFilterPredicate object ⟨operand, .eq literal.value⟩)
  between : evaluateFilterPredicate object ⟨operand, .between low.value literal.value⟩ =
    (evaluateFilterPredicate object ⟨operand, .gte low.value⟩ &&
      evaluateFilterPredicate object ⟨operand, .lte literal.value⟩)
  in_ : evaluateFilterPredicate object ⟨operand, .in (literals.map FilterLiteral.value)⟩ =
    literals.any fun literal => evaluateFilterPredicate object ⟨operand, .eq literal.value⟩

theorem coherentComparisons_of_imp {low : FilterLiteral} {literals : List FilterLiteral}
    (h : operandOrder object operand literal.value = some .eq → filterOperandValue object operand = some literal.value) :
    CoherentComparisons object operand low literal literals := by
  have hlte : evaluateFilterPredicate object ⟨operand, .lte literal.value⟩ =
      (operandOrder object operand literal.value).any (· ≠ .gt) := compareOperand_eq _
  have hgte : evaluateFilterPredicate object ⟨operand, .gte literal.value⟩ =
      (operandOrder object operand literal.value).any (· ≠ .lt) := compareOperand_eq _
  have hlt : evaluateFilterPredicate object ⟨operand, .lt literal.value⟩ =
      (operandOrder object operand literal.value).any (· = .lt) := compareOperand_eq _
  have hiff : evaluateFilterPredicate object ⟨operand, .eq literal.value⟩ = true ↔
      operandOrder object operand literal.value = some .eq :=
    evaluate_eq_iff.trans ⟨operandOrder_of_eq, h⟩
  refine ⟨?_, ?_, rfl, ?_⟩
  · rw [Bool.eq_iff_iff, hiff, hlte, hgte]
    cases operandOrder object operand literal.value with
    | none => simp
    | some o => cases o <;> simp
  · have hnot : (!evaluateFilterPredicate object ⟨operand, .eq literal.value⟩) =
        decide (operandOrder object operand literal.value ≠ some .eq) := by
      rw [Bool.eq_iff_iff]
      simp [← hiff]
    rw [hlt, hlte, hnot]
    cases operandOrder object operand literal.value with
    | none => simp
    | some o => cases o <;> simp
  · exact evaluate_in literals

/-- **Comparisons are coherent** exactly where an operand that compares as equal to the literal, which
compares integers as doubles, is an attribute that holds the literal. -/
theorem coherentComparisons_iff (object : JsonMap) (operand : FilterOperand) (low literal : FilterLiteral)
    (literals : List FilterLiteral) : CoherentComparisons object operand low literal literals ↔
      (operandOrder object operand literal.value = some .eq →
        filterOperandValue object operand = some literal.value) := by
  refine ⟨fun h horder => ?_, coherentComparisons_of_imp⟩
  have hlte : evaluateFilterPredicate object ⟨operand, .lte literal.value⟩ =
      (operandOrder object operand literal.value).any (· ≠ .gt) := compareOperand_eq _
  have hgte : evaluateFilterPredicate object ⟨operand, .gte literal.value⟩ =
      (operandOrder object operand literal.value).any (· ≠ .lt) := compareOperand_eq _
  have heq := h.eq
  rw [hlte, hgte, horder] at heq
  exact evaluate_eq_iff.mp heq

/-- Comparisons of an attribute with a text are coherent, whatever the attribute holds. -/
theorem coherentComparisons_text (object : JsonMap) (fieldName text : String) (low : FilterLiteral)
    (literals : List FilterLiteral) : CoherentComparisons object (.field fieldName) low (.text text) literals := by
  refine coherentComparisons_of_imp fun horder => ?_
  obtain ⟨value, hvalue, hcompare⟩ := Option.bind_eq_some_iff.mp horder
  cases value with
  | null | bool _ | number _ | array _ | object _ => cases hcompare
  | string stored =>
    have hstored : stored = text := Std.LawfulEqCmp.eq_of_compare (Option.some.inj hcompare)
    rw [← hstored]
    exact hvalue

/-- Comparisons of an attribute with an integer below `2 ^ 53` are coherent, unless the attribute holds a
double. -/
theorem coherentComparisons_int (object : JsonMap) (fieldName : String) {n : Int} (hn : n.natAbs < 2 ^ 53)
    (hinteger : ∀ m, visibleObjectValue object fieldName = some (.number m) → m.asInt.isSome = true)
    (low : FilterLiteral) (literals : List FilterLiteral) :
    CoherentComparisons object (.field fieldName) low (.int n) literals := by
  refine coherentComparisons_of_imp fun horder => ?_
  obtain ⟨value, hvalue, hcompare⟩ := Option.bind_eq_some_iff.mp horder
  obtain ⟨literal, hliteral, hexact⟩ : ∃ literal, Value.int n = .number literal ∧ literal.asInt = some n := by
    cases n with
    | ofNat n => exact ⟨_, rfl, rfl⟩
    | negSucc n => exact ⟨_, rfl, congrArg some (Int.negSucc_eq n).symm⟩
  rw [FilterLiteral.value, hliteral] at hcompare
  cases value with
  | null | bool _ | string _ | array _ | object _ => cases hcompare
  | number stored =>
    obtain ⟨m, hm⟩ := Option.isSome_iff_exists.mp (hinteger stored hvalue)
    have hround : compare (roundedInt m) (roundedInt n) = .eq := by
      rw [← cmp_asF64_eq_compare hm hexact]
      exact Option.some.inj hcompare
    obtain rfl := (roundedInt_eq_iff hn).mp (compare_eq_iff_eq.mp hround)
    rw [FilterLiteral.value, hliteral, ← Number.eq_of_asInt hm hexact]
    exact hvalue

/-- A text of two bytes whose size is not equal to two, and an integer that compares as equal to another
one. -/
theorem not_coherentComparisons :
    (¬ CoherentComparisons (Dict.insertAll ∅ [("a", .string "xy")]) (.size "a") (.int 2) (.int 2) []) ∧
    ¬ CoherentComparisons (Dict.insertAll ∅ [("a", .int 9007199254740993)]) (.field "a") (.int 0)
      (.int 9007199254740992) [] :=
  ⟨fun h => absurd h.eq (by decide +kernel), fun h => absurd h.eq (by decide +kernel)⟩

end

end PowdrrEngine
