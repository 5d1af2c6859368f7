import PowdrrEngine.ContractJson
import PowdrrEngine.ContractSchema

/-! SQL expressions of the search queries. Before a query runs on a file, `finalize` replaces the columns
the file does not have by typed nulls, and `stringize` renders the expression. A failed assertion is
`none`. -/

namespace PowdrrEngine

inductive SqlExpression where
  | and (exprs : List SqlExpression)
  | arithmetic (left : SqlExpression) (op : String) (right : SqlExpression)
  | average (value : SqlExpression)
  | comparison (left : SqlExpression) (op : String) (right : SqlExpression)
  | count
  | countDistinct (value : SqlExpression)
  | fieldRef (table name : String)
  | in (left : SqlExpression) (right : List SqlExpression)
  | isNull (value : SqlExpression)
  | like (left right : SqlExpression)
  | literalNonString (value : String)
  | literalString (value : String)
  | namedStruct (entries : List (String × SqlExpression))
  | not (value : SqlExpression)
  | null (dataType : PowdrrDataType)
  | or (exprs : List SqlExpression)

/-- `to_sql_type` where `stringize` calls it. -/
def PowdrrDataType.toSqlType : PowdrrDataType → Option String
  | .boolean => some "BOOLEAN"
  | .float => some "DOUBLE"
  | .integer => some "BIGINT"
  | .string => some "STRING"
  | .array _ | .object _ | .null => none

def PowdrrDataType.isObject : PowdrrDataType → Bool
  | .object _ => true
  | _ => false

def PowdrrDataType.nullText : PowdrrDataType → Option String
  | .object _ | .array _ | .null => some "NULL"
  | .boolean => some "false"
  | dataType => dataType.toSqlType.map fun sqlType => "CAST(NULL AS " ++ sqlType ++ ")"

/-- `name.replace(".", "_")`. -/
def denormalizedName (name : String) : String := name.map fun c => if c = '.' then '_' else c

/-- `lookup_field` of a denormalized name, which is a path of one part. -/
def lookupField (schema : PowdrrSchema) (name : String) : Option PowdrrField := schema.toMapGet name

namespace SqlExpression

/-! ### Rendering -/

mutual

/-- The text of an expression; none where the code stops. -/
def stringize : SqlExpression → Option String
  | .and exprs => (stringizeAll exprs).map fun texts => "(" ++ " AND ".intercalate texts ++ ")"
  | .arithmetic left op right => do
    let left ← stringize left
    let right ← stringize right
    some ("(" ++ left ++ " " ++ op ++ " " ++ right ++ ")")
  | .average value => (stringize value).map fun text => "AVG(" ++ text ++ ")"
  | .comparison left op right => do
    let left ← stringize left
    let right ← stringize right
    some ("(" ++ left ++ " " ++ op ++ " " ++ right ++ ")")
  | .count => some "count(1)"
  | .countDistinct value => (stringize value).map fun text => "count(distinct " ++ text ++ ")"
  | .fieldRef table name =>
    if table = "t" then some (table ++ ".\"" ++ denormalizedName name ++ "\"")
    else if name.contains '.' then none
    else some (table ++ ".\"" ++ name ++ "\"")
  | .in left right => do
    let left ← stringize left
    let right ← stringizeAll right
    some (left ++ " IN (" ++ ", ".intercalate right ++ ")")
  | .isNull value => (stringize value).map fun text => text ++ " IS NULL"
  | .like left right => do
    let left ← stringize left
    let right ← stringize right
    some (left ++ " LIKE " ++ right)
  | .literalNonString value => some value
  | .literalString value => some ("'" ++ value ++ "'")
  | .namedStruct entries =>
    (stringizeEntries entries).map fun texts => "NAMED_STRUCT(" ++ ", ".intercalate texts ++ ")"
  | .not value => (stringize value).map fun text => "NOT(" ++ text ++ ")"
  | .null dataType => dataType.nullText
  | .or exprs => (stringizeAll exprs).map fun texts => "(" ++ " OR ".intercalate texts ++ ")"

def stringizeAll : List SqlExpression → Option (List String)
  | [] => some []
  | expr :: exprs => do
    let text ← stringize expr
    let texts ← stringizeAll exprs
    some (text :: texts)

def stringizeEntries : List (String × SqlExpression) → Option (List String)
  | [] => some []
  | entry :: entries => do
    let text ← stringizeEntry entry
    let texts ← stringizeEntries entries
    some (text :: texts)

def stringizeEntry : String × SqlExpression → Option String
  | (name, expr) => (stringize expr).map fun text => "'" ++ name ++ "', " ++ text

end

/-! ### Missing columns -/

mutual

/-- `populate_field`. Both types are values of one Rust type, so its test for a type change never fires;
a member that the file has is the reference to the whole column again. -/
def populateField (self : SqlExpression) (target : PowdrrDataType) : (original : PowdrrDataType) → SqlExpression
  | .object ⟨fields⟩ =>
    match target with
    | .object target => .namedStruct (populateFields self target fields)
    | _ => self
  | _ => self
termination_by structural original => original

/-- The loop over the members; of two members with one name the map holds the later one. -/
def populateFields (self : SqlExpression) (target : PowdrrSchema) :
    (fields : List PowdrrField) → List (String × SqlExpression)
  | [] => []
  | field :: fields =>
    if fields.any fun f => f.name = field.name then populateFields self target fields
    else populateMember self target field :: populateFields self target fields
termination_by structural fields => fields

def populateMember (self : SqlExpression) (target : PowdrrSchema) : (field : PowdrrField) → String × SqlExpression
  | ⟨name, dataType⟩ =>
    match target.toMapGet name with
    | some targetField => (name, populateField self targetField.dataType dataType)
    | none => (name, .null dataType)
termination_by structural field => field

end

section

variable (originalSchema targetSchema : PowdrrSchema)

mutual

/-- An expression of the table for a file that may lack its columns. -/
def finalize : SqlExpression → Option SqlExpression
  | .and exprs => (finalizeAll exprs).map .and
  | .arithmetic left op right => do
    let left ← finalize left
    let right ← finalize right
    some (.arithmetic left op right)
  | .average value => (finalize value).map .average
  | .comparison left op right => do
    let left ← finalize left
    let right ← finalize right
    let text ← left.stringize
    if text = "null" then some (.literalNonString "false") else some (.comparison left op right)
  | .count => some .count
  | .countDistinct value => (finalize value).map .countDistinct
  | .fieldRef table name =>
    if table = "t" then
      match lookupField originalSchema (denormalizedName name) with
      | none => some (.literalNonString "null")
      | some original =>
        match lookupField targetSchema (denormalizedName name) with
        | some target =>
          some (populateField (.fieldRef table name) target.dataType original.dataType)
        | none => some (.null original.dataType)
    else some (.fieldRef table name)
  | .in left right => do
    let left ← finalize left
    let right ← finalizeAll right
    some (.in left right)
  | .isNull value => (finalize value).map .isNull
  | .like left right => do
    let left ← finalize left
    let right ← finalize right
    some (.like left right)
  | .literalNonString value => some (.literalNonString value)
  | .literalString value => some (.literalString value)
  | .namedStruct entries => (finalizeEntries entries).map .namedStruct
  | .not value => (finalize value).map .not
  | .null dataType => some (.null dataType)
  | .or exprs => (finalizeAll exprs).map .or

def finalizeAll : List SqlExpression → Option (List SqlExpression)
  | [] => some []
  | expr :: exprs => do
    let expr ← finalize expr
    let exprs ← finalizeAll exprs
    some (expr :: exprs)

def finalizeEntries : List (String × SqlExpression) → Option (List (String × SqlExpression))
  | [] => some []
  | entry :: entries => do
    let entry ← finalizeEntry entry
    let entries ← finalizeEntries entries
    some (entry :: entries)

def finalizeEntry : String × SqlExpression → Option (String × SqlExpression)
  | (name, expr) => (finalize expr).map fun expr => (name, expr)

end

end

end SqlExpression

end PowdrrEngine
