import PowdrrEngine.ServingFloat
import PowdrrEngine.ServingRounding

/-! DynamoDB attribute values and the JSON they are stored as. An attribute value is a JSON object whose
one member names the type; numbers travel as decimal texts and are stored as integers where the text is
one that fits 64 bits, otherwise as the nearest double. Binary values and sets are stored as objects
with a marker member. -/

namespace PowdrrEngine

/-! ### Errors -/

inductive DynamoDbStatus where
  | badRequest
  | forbidden
  | internalServerError
  deriving DecidableEq

structure DynamoDbError where
  status : DynamoDbStatus
  typeName : String
  message : String
  deriving DecidableEq

namespace DynamoDbError

variable (message : String)

def validation : DynamoDbError := ⟨.badRequest, "ValidationException", message⟩

def conditionalCheckFailed : DynamoDbError := ⟨.badRequest, "ConditionalCheckFailedException", message⟩

def internal : DynamoDbError := ⟨.internalServerError, "InternalServerError", message⟩

end DynamoDbError

/-- How a request ends without success: with an error, or because a function panicked. -/
inductive DynamoDbFailure where
  | error (error : DynamoDbError)
  | panicked
  deriving DecidableEq

abbrev DynamoResult (α : Type) := Except DynamoDbFailure α

instance {α : Type} [DecidableEq α] : DecidableEq (DynamoResult α) :=
  inferInstanceAs (DecidableEq (Except DynamoDbFailure α))

namespace DynamoResult

variable {α : Type} (message : String)

def validation : DynamoResult α := .error (.error (.validation message))

def internal : DynamoResult α := .error (.error (.internal message))

def conditionalCheckFailed : DynamoResult α := .error (.error (.conditionalCheckFailed message))

def panicked : DynamoResult α := .error .panicked

/-- `ok_or_else`. -/
def ofOption (value : Option α) (error : DynamoDbError) : DynamoResult α :=
  match value with
  | some value => .ok value
  | none => .error (.error error)

theorem ofOption_eq_ok {value : Option α} {error : DynamoDbError} {a : α} :
    ofOption value error = .ok a ↔ value = some a := by
  cases value <;> simp [ofOption]

end DynamoResult

/-! ### JSON -/

/-- `serde_json::Map`. -/
abbrev JsonMap := Dict String Value

namespace Value

def asStr : Value → Option String
  | .string text => some text
  | _ => none

def asArray : Value → Option (List Value)
  | .array items => some items
  | _ => none

def asObject : Value → Option (List (String × Value))
  | .object members => some members
  | _ => none

def isNull : Value → Bool
  | .null => true
  | _ => false

def isNumber : Value → Bool
  | .number _ => true
  | _ => false

/-- The number, where it is an integer in the range of an `i64`. -/
def asI64 : Value → Option Int
  | .number n => n.asInt.filter fun z => -2 ^ 63 ≤ z ∧ z < 2 ^ 63
  | _ => none

@[simp] theorem isNull_eq_false_iff {v : Value} : v.isNull = false ↔ v ≠ .null := by
  cases v <;> simp [isNull]

end Value

/-- `==` on numbers: an integer is never equal to a double, and the two zeros are equal. -/
def Number.jsonEq : Number → Number → Bool
  | .float a, .float b => a.toDyadic.cmp b.toDyadic = .eq
  | a, b => a = b

namespace Value

mutual

/-- `==` on JSON values. The order of the members of an object does not count. -/
def jsonEq : Value → Value → Bool
  | .null, .null => true
  | .bool a, .bool b => a = b
  | .number a, .number b => a.jsonEq b
  | .string a, .string b => a = b
  | .array as, .array bs => itemsEq as bs
  | .object as, .object bs => as.length = bs.length && membersEq as bs
  | _, _ => false
termination_by structural a => a

def itemsEq : List Value → List Value → Bool
  | [], [] => true
  | a :: as, b :: bs => jsonEq a b && itemsEq as bs
  | _, _ => false
termination_by structural as => as

def membersEq : List (String × Value) → List (String × Value) → Bool
  | [], _ => true
  | a :: as, bs => memberEq a bs && membersEq as bs
termination_by structural as => as

def memberEq : String × Value → List (String × Value) → Bool
  | (key, a), bs => (bs.lookup key).any fun b => jsonEq a b
termination_by structural a => a

end

end Value

/-- `visible_object_value`: an attribute that is null counts as missing. -/
def visibleObjectValue (object : JsonMap) (fieldName : String) : Option Value :=
  (object.lookup fieldName).filter fun value => !value.isNull

theorem visibleObjectValue_eq_some {object : JsonMap} {fieldName : String} {value : Value} :
    visibleObjectValue object fieldName = some value ↔ object.lookup fieldName = some value ∧ value ≠ .null := by
  simp [visibleObjectValue, Option.filter_eq_some_iff]

def compareScalars (left right : Value) : DynamoResult Ordering :=
  .ofOption (compareScalarValues left right)
    (.validation "ExclusiveStartKey comparison only supports scalar values")

/-! ### Numbers as text -/

/-- A number of decimal digits, at least one. -/
def parseDigits (digits : List Char) : Option Nat :=
  if digits ≠ [] ∧ digits.all Char.isDigit then
    some (digits.foldl (fun n digit => 10 * n + (digit.toNat - '0'.toNat)) 0)
  else none

/-- A sign, which may be left out, and what follows it; true for a minus. -/
def splitSign : List Char → Bool × List Char
  | '-' :: rest => (true, rest)
  | '+' :: rest => (false, rest)
  | chars => (false, chars)

/-- `str::parse::<i64>`. -/
def parseI64 (text : String) : Option Int :=
  let (neg, digits) := splitSign text.toList
  (parseDigits digits).bind fun n =>
    let value : Int := if neg then -n else n
    if -2 ^ 63 ≤ value ∧ value < 2 ^ 63 then some value else none

namespace Dyadic

/-- The double nearest to `± n * 2 ^ e`, ties to an even mantissa; none where it overflows. The least
unit of a double is `2 ^ -1074`. -/
def nearestF64 (neg : Bool) (n : Nat) (e : Int) : Option F64 :=
  let unit := max (e + Nat.log2 n - 52) (-1074)
  if unit ≤ e then toF64? ⟨neg, n, e⟩
  else
    let shift := (unit - e).toNat
    toF64? ⟨neg, roundUp (n / 2 ^ shift) (n % 2 ^ shift) (2 ^ (shift - 1)), unit⟩

/-- The double nearest to `± n * 10 ^ e`. A quotient is taken to more than 56 bits, its last bit records
a remainder. -/
def ofDecimal (neg : Bool) (n : Nat) (e : Int) : Option F64 :=
  if 0 ≤ e then nearestF64 neg (n * 10 ^ e.toNat) 0
  else
    let power := 10 ^ (-e).toNat
    let shift := 56 + Nat.log2 power
    let quotient := n * 2 ^ shift / power
    let remainder := n * 2 ^ shift % power
    nearestF64 neg (2 * quotient + (if remainder = 0 then 0 else 1)) (-shift - 1)

end Dyadic

/-- The exponent of a decimal number: nothing, or `e` and a signed number of digits. -/
def parseExponent : List Char → Option Int
  | [] => some 0
  | mark :: rest =>
    if mark = 'e' ∨ mark = 'E' then
      let (neg, digits) := splitSign rest
      (parseDigits digits).map fun n => if neg then -n else n
    else none

/-- The digits before and after the point of a decimal number and its exponent, as `n * 10 ^ e`. -/
def parseDecimal (chars : List Char) : Option (Nat × Int) :=
  let (whole, rest) := chars.span Char.isDigit
  let (fraction, rest) :=
    match rest with
    | '.' :: rest => rest.span Char.isDigit
    | rest => ([], rest)
  (parseDigits (whole ++ fraction)).bind fun n =>
    (parseExponent rest).map fun e => (n, e - fraction.length)

/-- `str::parse::<f64>` as a JSON number; the infinities and the texts for no number become null. -/
def parseF64 (text : String) : Option Value :=
  let (neg, chars) := splitSign text.toList
  if String.ofList (chars.map Char.toLower) ∈ ["inf", "infinity", "nan"] then some .null
  else (parseDecimal chars).map fun (n, e) =>
    ((Dyadic.ofDecimal neg n e).map fun f => Value.number (.float f)).getD .null

/-- The number a text stands for: an `i64` where the text is one, otherwise a double. -/
def parseNumber (text : String) : Option Value :=
  match parseI64 text with
  | some n => some (.int n)
  | none => parseF64 text

-- an integer in another notation is a double, one beyond 64 bits is rounded
example : parseNumber "-12" = some (.int (-12)) := by decide
example : (parseNumber "1.0").map (·.isNumber) = some true ∧ parseNumber "1.0" ≠ some (.int 1) := by decide
example : parseNumber "9007199254740993.0" = parseNumber "9007199254740992.0" := by decide +kernel

/-! ### Attribute values -/

def dynamodbBinaryMarker : String := "$binary"

def dynamodbStringSetMarker : String := "$string_set"

def dynamodbNumberSetMarker : String := "$number_set"

def dynamodbBinarySetMarker : String := "$binary_set"

/-- The members of a set of strings or of binaries: `SS` or `BS`. -/
def stringSetMembers (typeName : String) : List Value → DynamoResult (List Value)
  | [] => .ok []
  | .string text :: rest => (stringSetMembers typeName rest).map fun texts => .string text :: texts
  | _ :: _ => .validation ("AttributeValue." ++ typeName ++ " members must be strings")

def numberSetMembers : List Value → DynamoResult (List Value)
  | [] => .ok []
  | .string text :: rest =>
    match parseNumber text with
    | some number => (numberSetMembers rest).map fun numbers => number :: numbers
    | none =>
      .validation ("AttributeValue.NS member could not be parsed as a number: " ++ text)
  | _ :: _ => .validation "AttributeValue.NS members must be strings"

def stringAttr : Value → DynamoResult Value
  | .string text => .ok (.string text)
  | _ => .validation "AttributeValue.S must be a string"

def numberAttr : Value → DynamoResult Value
  | .string text =>
    .ofOption (parseNumber text)
      (.validation ("AttributeValue.N could not be parsed as a number: " ++ text))
  | _ => .validation "AttributeValue.N must be a string"

def boolAttr : Value → DynamoResult Value
  | .bool b => .ok (.bool b)
  | _ => .validation "AttributeValue.BOOL must be a boolean"

def binaryAttr : Value → DynamoResult Value
  | .string text => .ok (.object [(dynamodbBinaryMarker, .string text)])
  | _ => .validation "AttributeValue.B must be a string"

def nullAttr : Value → DynamoResult Value
  | .bool true => .ok .null
  | _ => .validation "AttributeValue.NULL must be true"

def setAttr (typeName marker : String) (members : List Value → DynamoResult (List Value)) : Value → DynamoResult Value
  | .array items => (members items).map fun values => .object [(marker, .array values)]
  | _ => .validation ("AttributeValue." ++ typeName ++ " must be an array")

/-- The types that hold no further attribute values, in the order in which they are looked for. -/
def plainAttr (members : List (String × Value)) : Option (DynamoResult Value) :=
  let first (typeName : String) (convert : Value → DynamoResult Value) := (members.lookup typeName).map convert
  first "S" stringAttr <|> first "N" numberAttr <|> first "BOOL" boolAttr <|> first "B" binaryAttr <|>
    first "NULL" nullAttr <|> first "SS" (setAttr "SS" dynamodbStringSetMarker (stringSetMembers "SS")) <|>
    first "NS" (setAttr "NS" dynamodbNumberSetMarker numberSetMembers) <|>
    first "BS" (setAttr "BS" dynamodbBinarySetMarker (stringSetMembers "BS"))

mutual

def dynamodbAttrToJson : Value → DynamoResult Value
  | .object members =>
    match plainAttr members, listMember members, mapMember members with
    | some converted, _, _ => converted
    | none, some converted, _ => converted
    | none, none, some converted => converted
    | none, none, none => .validation "Unsupported DynamoDB AttributeValue shape"
  | _ => .validation "DynamoDB AttributeValue must be an object"
termination_by structural v => v

/-- The member `L`, converted. -/
def listMember : List (String × Value) → Option (DynamoResult Value)
  | [] => none
  | member :: members => (listOf member).or (listMember members)
termination_by structural members => members

def listOf : String × Value → Option (DynamoResult Value)
  | (key, value) => if key = "L" then some (listAttr value) else none
termination_by structural member => member

def listAttr : Value → DynamoResult Value
  | .array items => (attrItems items).map .array
  | _ => .validation "AttributeValue.L must be an array"
termination_by structural v => v

def attrItems : List Value → DynamoResult (List Value)
  | [] => .ok []
  | item :: items => do
    let item ← dynamodbAttrToJson item
    let items ← attrItems items
    .ok (item :: items)
termination_by structural items => items

/-- The member `M`, converted. -/
def mapMember : List (String × Value) → Option (DynamoResult Value)
  | [] => none
  | member :: members => (mapOf member).or (mapMember members)
termination_by structural members => members

def mapOf : String × Value → Option (DynamoResult Value)
  | (key, value) => if key = "M" then some (mapAttr value) else none
termination_by structural member => member

def mapAttr : Value → DynamoResult Value
  | .object members => (attrMembers members).map .object
  | _ => .validation "AttributeValue.M must be an object"
termination_by structural v => v

def attrMembers : List (String × Value) → DynamoResult (List (String × Value))
  | [] => .ok []
  | member :: members => do
    let member ← attrMember member
    let members ← attrMembers members
    .ok (member :: members)
termination_by structural members => members

def attrMember : String × Value → DynamoResult (String × Value)
  | (key, value) => (dynamodbAttrToJson value).map fun value => (key, value)
termination_by structural member => member

end

variable (floatText : F64 → String)

/-- `Number::to_string`, given the texts of doubles. -/
def Number.text : Number → String
  | .posInt n => toString n
  | .negInt n => "-" ++ toString (n + 1)
  | .float f => floatText f

def stringArrayValue (marker : String) : Value → DynamoResult (List String)
  | .array items => items.mapM fun
      | .string text => .ok text
      | _ => .validation (marker ++ " marker array members must be strings")
  | _ => .validation (marker ++ " marker must contain an array")

def numberSetValue : Value → DynamoResult (List String)
  | .array items => items.mapM fun
      | .number number => .ok (number.text floatText)
      | _ => .validation "$number_set marker array members must be numbers"
  | _ => .validation "$number_set marker must contain an array"

def markedAttr (members : List (String × Value)) : Option (DynamoResult Value) :=
  let texts (typeName : String) (values : DynamoResult (List String)) : DynamoResult Value :=
    values.map fun values => .object [(typeName, .array (values.map .string))]
  ((members.lookup dynamodbBinaryMarker).map fun value =>
      (DynamoResult.ofOption value.asStr (.validation "$binary marker must contain a base64 string")).map
        fun text => .object [("B", .string text)]) <|>
    ((members.lookup dynamodbStringSetMarker).map fun value =>
      texts "SS" (stringArrayValue dynamodbStringSetMarker value)) <|>
    ((members.lookup dynamodbNumberSetMarker).map fun value => texts "NS" (numberSetValue floatText value)) <|>
    ((members.lookup dynamodbBinarySetMarker).map fun value =>
      texts "BS" (stringArrayValue dynamodbBinarySetMarker value))

section

mutual

def jsonToDynamodbAttr : Value → DynamoResult Value
  | .null => .ok (.object [("NULL", .bool true)])
  | .bool b => .ok (.object [("BOOL", .bool b)])
  | .number number => .ok (.object [("N", .string (number.text floatText))])
  | .string text => .ok (.object [("S", .string text)])
  | .array items => (jsonItems items).map fun items => .object [("L", .array items)]
  | .object members =>
    match markedAttr floatText members with
    | some converted => converted
    | none => (jsonMembers members).map fun members => .object [("M", .object members)]
termination_by structural v => v

def jsonItems : List Value → DynamoResult (List Value)
  | [] => .ok []
  | item :: items => do
    let item ← jsonToDynamodbAttr item
    let items ← jsonItems items
    .ok (item :: items)
termination_by structural items => items

def jsonMembers : List (String × Value) → DynamoResult (List (String × Value))
  | [] => .ok []
  | member :: members => do
    let member ← jsonMember member
    let members ← jsonMembers members
    .ok (member :: members)
termination_by structural members => members

def jsonMember : String × Value → DynamoResult (String × Value)
  | (key, value) => (jsonToDynamodbAttr value).map fun value => (key, value)
termination_by structural member => member

end

end

-- a set of numbers comes back in the texts of its members
example : (dynamodbAttrToJson (.object [("NS", .array [.string "7", .string "+8"])])).bind
    (jsonToDynamodbAttr fun _ => "") = .ok (.object [("NS", .array [.string "7", .string "8"])]) := by decide

end PowdrrEngine
