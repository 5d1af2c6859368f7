import Mathlib.Data.List.Nodup
import Mathlib.Data.List.Sort

/-! Table schemas: the data types a column can have, the fields of a schema, and `merge_from`, the
operation by which a checkpoint's schema absorbs the schema of a commit. Merging stops the service
where a column would change its type; a stop is `none` here. -/

namespace PowdrrEngine

open List

mutual

/-- The type of a column. -/
inductive PowdrrDataType where
  | array (element : PowdrrDataType)
  | boolean
  | float
  | integer
  | null
  | object (schema : PowdrrSchema)
  | string

/-- A named column. -/
structure PowdrrField where
  name : String
  dataType : PowdrrDataType

/-- The columns of a table or of a file, in order. -/
structure PowdrrSchema where
  fields : List PowdrrField

end

/-! ### Decidable equality

The three types are mutually recursive, so equality is decided by hand, structurally on the left. -/

mutual

def PowdrrDataType.decEq : (a b : PowdrrDataType) → Decidable (a = b)
  | .array a, .array b =>
    have := PowdrrDataType.decEq a b
    decidable_of_iff (a = b) (by simp)
  | .object a, .object b =>
    have := PowdrrSchema.decEq a b
    decidable_of_iff (a = b) (by simp)
  | .boolean, .boolean | .float, .float | .integer, .integer | .null, .null
  | .string, .string => isTrue rfl
  | .array _, .boolean | .array _, .float | .array _, .integer | .array _, .null
  | .array _, .object _ | .array _, .string
  | .boolean, .array _ | .boolean, .float | .boolean, .integer | .boolean, .null
  | .boolean, .object _ | .boolean, .string
  | .float, .array _ | .float, .boolean | .float, .integer | .float, .null
  | .float, .object _ | .float, .string
  | .integer, .array _ | .integer, .boolean | .integer, .float | .integer, .null
  | .integer, .object _ | .integer, .string
  | .null, .array _ | .null, .boolean | .null, .float | .null, .integer
  | .null, .object _ | .null, .string
  | .object _, .array _ | .object _, .boolean | .object _, .float | .object _, .integer
  | .object _, .null | .object _, .string
  | .string, .array _ | .string, .boolean | .string, .float | .string, .integer
  | .string, .null | .string, .object _ => isFalse nofun
termination_by structural a => a

def PowdrrSchema.decEq : (a b : PowdrrSchema) → Decidable (a = b)
  | ⟨a⟩, ⟨b⟩ =>
    have := PowdrrField.decEqList a b
    decidable_of_iff (a = b) (by simp)
termination_by structural a => a

def PowdrrField.decEq : (a b : PowdrrField) → Decidable (a = b)
  | ⟨n, a⟩, ⟨m, b⟩ =>
    have := PowdrrDataType.decEq a b
    decidable_of_iff (n = m ∧ a = b) (by simp)
termination_by structural a => a

def PowdrrField.decEqList : (a b : List PowdrrField) → Decidable (a = b)
  | [], [] => isTrue rfl
  | [], _ :: _ | _ :: _, [] => isFalse nofun
  | a :: as, b :: bs =>
    have := PowdrrField.decEq a b
    have := PowdrrField.decEqList as bs
    decidable_of_iff (a = b ∧ as = bs) (by simp)
termination_by structural a => a

end

instance : DecidableEq PowdrrDataType := PowdrrDataType.decEq
instance : DecidableEq PowdrrField := PowdrrField.decEq
instance : DecidableEq PowdrrSchema := PowdrrSchema.decEq

namespace PowdrrSchema

/-- The schema with no column. -/
def minimal : PowdrrSchema := ⟨[]⟩

def deletes : PowdrrSchema := ⟨[⟨"_id_seq_no", .string⟩]⟩

/-- The field of a name in `to_map`: where a name occurs twice the later field wins. -/
def toMapGet (schema : PowdrrSchema) (name : String) : Option PowdrrField :=
  schema.fields.reverse.find? fun f => f.name = name

/-- `self.fields[position] = merged_field` for the first field of the name. -/
def setField (fields : List PowdrrField) (field : PowdrrField) : List PowdrrField :=
  match fields with
  | [] => []
  | f :: fs => if f.name = field.name then field :: fs else f :: setField fs field

/-- The arms of `merge_field` that do not descend: an untyped column takes the incoming type, an
equal type stays, and any other pair panics. -/
def mergePlainType (self other : PowdrrDataType) : Option (Option PowdrrDataType) :=
  if self = .null then some (some other) else if self = other then some none else none

mutual

/-- The type a column gets when a column of type `other` is merged into it: `some none` where it
keeps its own, `none` where the source panics because the type would change. -/
def mergeDataType (self : PowdrrDataType) : (other : PowdrrDataType) → Option (Option PowdrrDataType)
  | .null => some none
  | .object other =>
    match self with
    | .object self => (mergeFrom self other).map fun merged => some (.object merged)
    | self => mergePlainType self (.object other)
  | .array other =>
    match self with
    | .array self => mergeElementType self other
    | self => mergePlainType self (.array other)
  | other => mergePlainType self other
termination_by structural other => other

/-- The array arm of `merge_field`: only element types that are both objects are merged. -/
def mergeElementType (self : PowdrrDataType) : (other : PowdrrDataType) → Option (Option PowdrrDataType)
  | .null => some none
  | .object other =>
    match self with
    | .object self => (mergeFrom self other).map fun merged => some (.array (.object merged))
    | self => (mergePlainType self (.object other)).map fun merged => merged.map .array
  | other => (mergePlainType self other).map fun merged => merged.map .array
termination_by structural other => other

/-- `merge_field`: the merged field keeps the incoming name. -/
def mergeField (self : PowdrrField) : (other : PowdrrField) → Option (Option PowdrrField)
  | ⟨name, dataType⟩ =>
    (mergeDataType self.dataType dataType).map fun merged => merged.map fun t => ⟨name, t⟩
termination_by structural other => other

/-- The loop of `merge_from` over the incoming fields. The map of the own fields is taken before the
loop, so a name that the incoming schema holds twice is looked up in the schema as it was. -/
def mergeFields (self : PowdrrSchema) (acc : List PowdrrField) : (others : List PowdrrField) → Option (List PowdrrField)
  | [] => some acc
  | other :: others =>
    match self.toMapGet other.name with
    | some selfField =>
      match mergeField selfField other with
      | none => none
      | some none => mergeFields self acc others
      | some (some merged) => mergeFields self (setField acc merged) others
    | none => mergeFields self (acc ++ [other]) others
termination_by structural others => others

/-- `merge_from`: absorb the fields of another schema; `none` where a column would change its type. -/
def mergeFrom (self : PowdrrSchema) : (other : PowdrrSchema) → Option PowdrrSchema
  | ⟨others⟩ => (mergeFields self self.fields others).map PowdrrSchema.mk
termination_by structural other => other

end

example : mergeFrom ⟨[⟨"a", .null⟩]⟩ ⟨[⟨"a", .integer⟩, ⟨"b", .string⟩]⟩ =
    some ⟨[⟨"a", .integer⟩, ⟨"b", .string⟩]⟩ := by decide

example : mergeFrom ⟨[⟨"a", .float⟩]⟩ ⟨[⟨"a", .integer⟩]⟩ = none := by decide

/-- `sort_by` on the names. -/
def sortByName (fields : List PowdrrField) : List PowdrrField := fields.insertionSort fun a b => a.name ≤ b.name

/-- `merge_all`; none where the list is empty or a column would change its type. -/
def mergeAll : List PowdrrSchema → Option PowdrrSchema
  | [] => none
  | schema :: schemas => (schemas.foldlM mergeFrom schema).map fun merged => ⟨sortByName merged.fields⟩

/-! ### Merging into nothing, and into itself -/

theorem mergeFields_minimal (acc others : List PowdrrField) :
    mergeFields minimal acc others = some (acc ++ others) := by
  induction others generalizing acc with
  | nil => simp [mergeFields]
  | cons other others ih =>
    have hnone : minimal.toMapGet other.name = none := rfl
    rw [mergeFields, hnone]
    dsimp only
    rw [ih, append_assoc, singleton_append]

@[simp] theorem mergeFrom_minimal (schema : PowdrrSchema) : minimal.mergeFrom schema = some schema := by
  obtain ⟨fields⟩ := schema
  rw [mergeFrom, mergeFields_minimal]
  rfl

mutual

/-- No two columns of a record in the type have one name. -/
def DistinctType : PowdrrDataType → Prop
  | .array element => DistinctType element
  | .object schema => Distinct schema
  | _ => True
termination_by structural t => t

/-- No two columns of a record have one name, nor do those of a record inside. -/
def Distinct : PowdrrSchema → Prop
  | ⟨fields⟩ => (fields.map (·.name)).Nodup ∧ DistinctFields fields
termination_by structural s => s

def DistinctField : PowdrrField → Prop
  | ⟨_, dataType⟩ => DistinctType dataType
termination_by structural f => f

def DistinctFields : List PowdrrField → Prop
  | [] => True
  | field :: fields => DistinctField field ∧ DistinctFields fields
termination_by structural fields => fields

end

end PowdrrSchema

end PowdrrEngine
