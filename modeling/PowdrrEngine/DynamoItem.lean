import PowdrrEngine.DynamoFilter
import PowdrrEngine.ContractSchema

/-! Items of a DynamoDB table and what a write does to them: the key of a request and the row it
addresses, the actions of an update, the attributes a write returns. -/

namespace PowdrrEngine

/-! ### Keys -/

structure DynamoDbKeySchemaConfig where
  partitionKey : String
  sortKey : Option String
  deriving DecidableEq

namespace DynamoDbKeySchemaConfig

def fields (keySchema : DynamoDbKeySchemaConfig) : List String := keySchema.partitionKey :: keySchema.sortKey.toList

end DynamoDbKeySchemaConfig

/-- One key field of `parse_key_map`. -/
def parseKeyField (key : JsonMap) (fieldName : String) (kind : String) : DynamoResult Value := do
  let value ← .ofOption (key.lookup fieldName)
    (.validation ("Key must include " ++ kind ++ " key " ++ fieldName))
  dynamodbAttrToJson value

/-- The sort key of `parse_key_map`, where there is one. -/
def parseSortKey (key parsed : JsonMap) : Option String → DynamoResult JsonMap
  | none => .ok parsed
  | some sortKey => (parseKeyField key sortKey "sort").map fun value => parsed.insert sortKey value

def parseKeyMap (key : JsonMap) (keySchema : DynamoDbKeySchemaConfig) : DynamoResult JsonMap := do
  let partitionValue ← parseKeyField key keySchema.partitionKey "partition"
  let parsed ← parseSortKey key (Dict.single keySchema.partitionKey partitionValue) keySchema.sortKey
  if key.entries.length ≠ parsed.entries.length then
    .validation "Key contained attributes that are not part of the table primary key"
  else .ok parsed

def copyKeyAttr (item target : JsonMap) (fieldName : String) : DynamoResult JsonMap := do
  let value ← .ofOption (item.lookup fieldName)
    (.validation ("Item was missing key field " ++ fieldName))
  .ok (target.insert fieldName value)

/-- The sort key of `parse_item_key_map`, where there is one. -/
def copySortKey (item target : JsonMap) : Option String → DynamoResult JsonMap
  | none => .ok target
  | some sortKey => copyKeyAttr item target sortKey

def parseItemKeyMap (item : JsonMap) (keySchema : DynamoDbKeySchemaConfig) : DynamoResult JsonMap := do
  let key ← copyKeyAttr item ∅ keySchema.partitionKey
  let key ← copySortKey item key keySchema.sortKey
  parseKeyMap key keySchema

/-- `==` on two values that may be missing. -/
def optionJsonEq : Option Value → Option Value → Bool
  | none, none => true
  | some a, some b => a.jsonEq b
  | _, _ => false

def rowMatchesKey (keySchema : DynamoDbKeySchemaConfig) (key row : JsonMap) : Bool :=
  keySchema.fields.all fun fieldName => optionJsonEq (row.lookup fieldName) (key.lookup fieldName)

/-- `split_rows_by_key`: the first row of the key, and the rows of other keys. -/
def splitRowsByKey (rows : List JsonMap) (keySchema : DynamoDbKeySchemaConfig) (key : JsonMap) :
    Option JsonMap × List JsonMap :=
  (rows.find? (rowMatchesKey keySchema key), rows.filter fun row => !rowMatchesKey keySchema key row)

def keyToPredicates (keySchema : DynamoDbKeySchemaConfig) (key : JsonMap) : List ReadPredicate :=
  keySchema.fields.map fun name => { field := name, eq := key.lookup name }

def canonicalKeyValue (keySchema : DynamoDbKeySchemaConfig) (key : JsonMap) : Value :=
  .object (keySchema.fields.filterMap fun fieldName => (key.lookup fieldName).map fun value => (fieldName, value))

/-! ### Items -/

/-- The loop of `dynamodb_item_to_json_row`. -/
def convertAttributes : List (String × Value) → DynamoResult (List (String × Value))
  | [] => .ok []
  | (key, value) :: rest => do
    let value ← dynamodbAttrToJson value
    let rest ← convertAttributes rest
    .ok ((key, value) :: rest)

def JsonMap.toPairs (map : JsonMap) : List (String × Value) := map.entries.map fun e => (e.1, e.2)

def dynamodbItemToJsonRow (item : JsonMap) : DynamoResult JsonMap :=
  (convertAttributes (JsonMap.toPairs item)).map fun converted => Dict.insertAll ∅ converted

def validatePutItemFields (schema : PowdrrSchema) (item : JsonMap) : DynamoResult Unit :=
  let unknownFields := item.keys.filter fun field => field ∉ schema.fields.map (·.name)
  if unknownFields = [] then .ok ()
  else .validation ("PutItem currently supports only existing table schema attributes; unknown fields: " ++
    ", ".intercalate unknownFields)

section

variable (floatText : F64 → String)

/-- The loop of `json_row_to_dynamodb_item`, over the attributes that are not null. -/
def itemAttributes : List (String × Value) → DynamoResult (List (String × Value))
  | [] => .ok []
  | (key, value) :: rest =>
    if value.isNull then itemAttributes rest
    else do
      let value ← jsonToDynamodbAttr floatText value
      let rest ← itemAttributes rest
      .ok ((key, value) :: rest)

def jsonRowToDynamodbItem (row : JsonMap) : DynamoResult JsonMap :=
  (itemAttributes floatText (JsonMap.toPairs row)).map fun item => Dict.insertAll ∅ item

def updatedAttributeProjection (item : Option JsonMap) (touchedFields : List String) : DynamoResult JsonMap :=
  match item with
  | none => .ok ∅
  | some object => touchedFields.foldlM (fun attributes field =>
    match visibleObjectValue object field with
    | none => .ok attributes
    | some value => (jsonToDynamodbAttr floatText value).map fun value => attributes.insert field value) ∅

end

/-! ### Updates -/

inductive UpdateAction where
  | set (field : String) (value : Value)
  | remove (field : String)
  | add (field : String) (value : Value)
  | delete (field : String) (value : Value)
  deriving DecidableEq

/-- The attribute an action is about. -/
def UpdateAction.field : UpdateAction → String
  | .set field _ => field
  | .remove field => field
  | .add field _ => field
  | .delete field _ => field

def dynamodbSetMembers (value : Value) : Option (String × List Value) := value.asObject.bind markedArray

def setValue (marker : String) (values : List Value) : Value := .object [(marker, .array values)]

def validateUpdateFieldName (fieldName : String) (schema : PowdrrSchema)
    (keySchema : DynamoDbKeySchemaConfig) : DynamoResult String :=
  if fieldName = "" then .validation "UpdateExpression field name must not be empty"
  else if '.' ∈ fieldName.toList ∨ '[' ∈ fieldName.toList ∨ ']' ∈ fieldName.toList then
    .validation "UpdateItem currently supports only top-level attribute updates"
  else if fieldName ∈ keySchema.fields then
    .validation ("UpdateItem cannot modify key attribute " ++ fieldName)
  else if fieldName ∉ schema.fields.map (·.name) then
    .validation ("UpdateItem currently supports only existing table schema attributes; unknown field " ++ fieldName)
  else .ok fieldName

/-- The values that an attribute of a column type may be given. -/
def PowdrrDataType.admits : PowdrrDataType → Value → Bool
  | _, .null => true
  | .string, .string _ => true
  | .integer, .number n => n.asInt.isSome
  | .float, .number _ => true
  | .boolean, .bool _ => true
  | .object _, .object _ => true
  | .array _, .array _ => true
  | _, _ => false

def validateUpdateValueType (schema : PowdrrSchema) (fieldName : String) (value : Value)
    (actionName : String) : DynamoResult Unit := do
  let field ← .ofOption (schema.toMapGet fieldName) (.validation ("Unknown schema field " ++ fieldName))
  if field.dataType.admits value then .ok ()
  else .validation (actionName ++ " value for field " ++ fieldName ++ " did not match the existing table schema type")

def validateAddValue (value : Value) : DynamoResult Unit :=
  if value.isNumber then .ok ()
  else
    match dynamodbSetMembers value with
    | some (_, []) => .validation "ADD does not support empty set values"
    | some _ => .ok ()
    | none => .validation "ADD currently supports only number and set values"

def validateDeleteValue (value : Value) : DynamoResult Unit :=
  match dynamodbSetMembers value with
  | none => .validation "DELETE currently supports only set values"
  | some (_, []) => .validation "DELETE does not support empty set values"
  | some _ => .ok ()

/-- The checks of `parse_update_action_clause` on a clause whose field and value have been read. -/
def checkUpdateAction (schema : PowdrrSchema) (keySchema : DynamoDbKeySchemaConfig) : UpdateAction → DynamoResult Unit
  | .set field value => do
    let field ← validateUpdateFieldName field schema keySchema
    validateUpdateValueType schema field value "SET"
  | .remove field => (validateUpdateFieldName field schema keySchema).map fun _ => ()
  | .add field value => do
    let field ← validateUpdateFieldName field schema keySchema
    validateAddValue value
    validateUpdateValueType schema field value "ADD"
  | .delete field value => do
    let field ← validateUpdateFieldName field schema keySchema
    validateDeleteValue value
    validateUpdateValueType schema field value "DELETE"

/-- The loop of `parse_update_expression` over the clauses: each is checked, and no attribute may be
updated twice. -/
def checkUpdateActions (schema : PowdrrSchema) (keySchema : DynamoDbKeySchemaConfig) :
    (seenFields : List String) → List UpdateAction → DynamoResult Unit
  | _, [] => .ok ()
  | seenFields, action :: actions => do
    checkUpdateAction schema keySchema action
    if action.field ∈ seenFields then
      .validation ("UpdateExpression cannot update attribute " ++ action.field ++ " multiple times")
    else checkUpdateActions schema keySchema (action.field :: seenFields) actions

/-- A double as a JSON number; an infinite one becomes null. -/
def jsonOfF64 (d : Dyadic) : Value := (d.toF64?.map fun f => Value.number (.float f)).getD .null

/-- `add_numeric_values`. The sum of two `i64` wraps around in a release build. -/
def addNumericValues (left right : Value) : DynamoResult Value :=
  match left.asI64, right.asI64 with
  | some left, some right => .ok (.int ((left + right).bmod (2 ^ 64)))
  | _, _ => do
    let left ← .ofOption (valueAsF64 left)
      (.validation "ADD numeric operand must reference a numeric attribute")
    let right ← .ofOption (valueAsF64 right) (.validation "ADD numeric operand must be a number")
    .ok (jsonOfF64 (left.add right))

/-- A member joins the members so far unless one of them is equal to it. -/
def pushMember (members : List Value) (member : Value) : List Value :=
  if members.any fun existing => existing.jsonEq member then members else members ++ [member]

def unionSetValues (existing operand : Value) : DynamoResult Value := do
  let (existingMarker, existingMembers) ← .ofOption (dynamodbSetMembers existing)
    (.validation "ADD currently supports only number and set values")
  let (operandMarker, operandMembers) ← .ofOption (dynamodbSetMembers operand)
    (.validation "ADD currently supports only number and set values")
  if existingMarker ≠ operandMarker then .validation "ADD set operands must use the same set type"
  else .ok (setValue existingMarker (operandMembers.foldl pushMember existingMembers))

def subtractSetValues (existing operand : Value) : DynamoResult (Option Value) := do
  let (existingMarker, existingMembers) ← .ofOption (dynamodbSetMembers existing)
    (.validation "DELETE currently supports only set attributes")
  let (operandMarker, operandMembers) ← .ofOption (dynamodbSetMembers operand)
    (.validation "DELETE currently supports only set values")
  if existingMarker ≠ operandMarker then .validation "DELETE set operands must use the same set type"
  else
    let remaining := existingMembers.filter fun member =>
      !operandMembers.any fun candidate => candidate.jsonEq member
    if remaining = [] then .ok none else .ok (some (setValue existingMarker remaining))

def applyAddAction (object : JsonMap) (field : String) (operand : Value) : DynamoResult JsonMap :=
  match visibleObjectValue object field with
  | none => .ok (object.insert field operand)
  | some existing =>
    if existing.isNumber && operand.isNumber then
      (addNumericValues existing operand).map fun value => object.insert field value
    else (unionSetValues existing operand).map fun value => object.insert field value

def applyDeleteAction (object : JsonMap) (field : String) (operand : Value) : DynamoResult JsonMap :=
  match visibleObjectValue object field with
  | none => .ok object
  | some existing => (subtractSetValues existing operand).map fun
      | none => object.erase field
      | some value => object.insert field value

def applyUpdateAction (object : JsonMap) : UpdateAction → DynamoResult JsonMap
  | .set field value => .ok (object.insert field value)
  | .remove field => .ok (object.erase field)
  | .add field value => applyAddAction object field value
  | .delete field value => applyDeleteAction object field value

/-- The key attributes of an updated item are those of the request. -/
def insertKey (object : JsonMap) (keySchema : DynamoDbKeySchemaConfig) (key : JsonMap) : DynamoResult JsonMap := do
  let partitionValue ← .ofOption (key.lookup keySchema.partitionKey)
    (.internal "Partition key was missing during update")
  let object := object.insert keySchema.partitionKey partitionValue
  match keySchema.sortKey with
  | none => .ok object
  | some sortKey => do
    let sortValue ← .ofOption (key.lookup sortKey) (.internal "Sort key was missing during update")
    .ok (object.insert sortKey sortValue)

def applyUpdateExpression (existingItem : Option JsonMap) (keySchema : DynamoDbKeySchemaConfig)
    (key : JsonMap) (actions : List UpdateAction) : DynamoResult JsonMap := do
  let object ← insertKey (existingItem.getD ∅) keySchema key
  actions.foldlM applyUpdateAction object

/-! ### Return values -/

inductive WriteReturnValues where
  | none
  | allOld
  | updatedOld
  | allNew
  | updatedNew
  deriving DecidableEq

def parseWriteReturnValues (value : Option String) (operation : String) : DynamoResult WriteReturnValues :=
  match value.getD "NONE" with
  | "NONE" => .ok .none
  | "ALL_OLD" => .ok .allOld
  | other =>
    if operation = "UpdateItem" ∧ other = "UPDATED_OLD" then .ok .updatedOld
    else if operation = "UpdateItem" ∧ other = "ALL_NEW" then .ok .allNew
    else if operation = "UpdateItem" ∧ other = "UPDATED_NEW" then .ok .updatedNew
    else .validation ("Unsupported ReturnValues value " ++ other ++ " for " ++ operation)

section

variable (floatText : F64 → String)

/-- The attributes that `PutItem` and `DeleteItem` return. -/
def oldAttributes (existingItem : Option JsonMap) : WriteReturnValues → DynamoResult (Option JsonMap)
  | .none => .ok none
  | .allOld =>
    match existingItem with
    | none => .ok none
    | some row => (jsonRowToDynamodbItem floatText row).map some
  | .updatedOld | .allNew | .updatedNew => .panicked

def updateReturnAttributes (oldItem : Option JsonMap) (newItem : JsonMap) (touchedFields : List String) :
    WriteReturnValues → DynamoResult (Option JsonMap)
  | .none => .ok none
  | .allOld =>
    match oldItem with
    | none => .ok none
    | some row => (jsonRowToDynamodbItem floatText row).map some
  | .allNew => (jsonRowToDynamodbItem floatText newItem).map some
  | .updatedOld => (updatedAttributeProjection floatText oldItem touchedFields).map fun map =>
    if map.entries = [] then none else some map
  | .updatedNew => (updatedAttributeProjection floatText (some newItem) touchedFields).map fun map =>
    if map.entries = [] then none else some map

end

end PowdrrEngine
