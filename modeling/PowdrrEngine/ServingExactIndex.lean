import PowdrrEngine.ServingCache
import PowdrrEngine.ServingTopK

/-! The exact index of a data file and the lookup through it. The index has an entry for every value of
an indexed column, with the document id of its row and the value cast to a string. A lookup counts, for
each document id, the entries that some predicate asks for, and runs the plan on the documents whose
count is the number of predicates. -/

namespace PowdrrEngine

/-! ### The index writer -/

/-- The Arrow types that are told apart; `other` is every type that is not indexed. -/
inductive ArrowType where
  | utf8View
  | utf8
  | largeUtf8
  | boolean
  | int8
  | int16
  | int32
  | int64
  | uint8
  | uint16
  | uint32
  | uint64
  | float16
  | float32
  | float64
  | other
  deriving DecidableEq

def isExactIndexType : ArrowType → Bool
  | .other => false
  | _ => true

/-- The document id field of `create_index_inner`. -/
def docIdField : String := "_id_seq_no"

structure ExactIndexEntry where
  docId : Value
  fieldName : String
  fieldValue : String
  deriving DecidableEq

/-- The columns that `create_exact_index_worker` indexes. -/
def exactFields (columns : List (String × ArrowType)) : List String :=
  (columns.filter fun column => isExactIndexType column.2 && column.1 ≠ docIdField).map Prod.fst

def exactIndexEntry (castText : Value → String) (field : String) (row : ServingRow) : Option ExactIndexEntry :=
  match row.lookup field with
  | none | some .null => none
  | some value => some ⟨(row.lookup docIdField).getD .null, field, castText value⟩

/-- `create_exact_index_worker`: nothing is written where no column is indexed. `castText` is the cast of
the SQL engine to a string. -/
def createExactIndexWorker (castText : Value → String) (columns : List (String × ArrowType))
    (rows : List ServingRow) : Option (List ExactIndexEntry) :=
  if exactFields columns = [] then none
  else some ((exactFields columns).flatMap fun field => rows.filterMap (exactIndexEntry castText field))

/-! ### Document ids -/

/-- `normalize_exact_lookup_value`; `numberText` is the text of a JSON number. -/
def normalizeExactLookupValue (numberText : Number → String) : Value → Option String
  | .string text => some text
  | .number n => some (numberText n)
  | .bool b => some (toString b)
  | _ => none

/-- `exact_lookup_key_sql_text`: the letter for the kind of the key is left out. -/
def exactLookupKeySqlText (numberText : Number → String) : SnapshotLookupKey → String
  | .string text => text
  | .number n => numberText n
  | .bool b => toString b

section

variable (numberText : Number → String)

/-- The condition on an entry that the SQL of `load_exact_lookup_doc_ids` has for one predicate. -/
def ExactLookupPredicate.asksFor (predicate : ExactLookupPredicate) (entry : ExactIndexEntry) : Bool :=
  entry.fieldName = predicate.field &&
    predicate.values.any fun value => entry.fieldValue = exactLookupKeySqlText numberText value

variable (predicates : List ExactLookupPredicate) (entries : List ExactIndexEntry)

def askedEntries : List ExactIndexEntry :=
  entries.filter fun entry => predicates.any fun predicate => predicate.asksFor numberText entry

/-- The groups of that SQL: the document ids with as many entries as there are predicates. -/
def exactLookupGroups : List Value :=
  ((askedEntries numberText predicates entries).map (·.docId)).dedup.filter fun docId =>
    (askedEntries numberText predicates entries).countP (·.docId = docId) = predicates.length

def maxExactLookupDocIds : Nat := 256

/-- What `load_exact_lookup_doc_ids` may return: groups in any order, cut at the limit of the SQL; null is
left out. -/
def IsExactLookupDocIds (docIds : List String) : Prop :=
  ∃ groups : List Value, groups.Perm (exactLookupGroups numberText predicates entries) ∧
    ((groups.take (maxExactLookupDocIds + 1)).filter (· ≠ .null)).mapM (normalizeExactLookupValue numberText) =
      some docIds

end

/-! ### The lookup -/

structure ServingExecutionResult where
  rows : List ServingRow := []
  filesSelected : Nat := 0
  estimatedBytes : Nat := 0
  artifactsUsed : List String := []

def exactIndexExtensionFile (extensionFiles : List ExtensionFile) : Option ExtensionFile :=
  extensionFiles.find? fun extension => extension.suffix = "exact_index"

/-- The request of `execute_exact_lookup_file`. -/
def exactLookupRequest (request : ReadPlan) (docIds : List String) : ReadPlan :=
  { request with
    filters := request.filters ++ [{ field := "_id_seq_no", inValues := some (docIds.map .string) }] }

section

variable (text : Value → String) (loadExactLookupDocIds : String → List ExactLookupPredicate → Except String (List String))
  (execute : FileDescriptor → ReadPlan → Except String (List ServingRow))

/-- `execute_exact_lookup_file`; `execute` runs the SQL of a request on a file. -/
def executeExactLookupFile (request : ReadPlan) (file : FileDescriptor) (docIds : List String) :
    Except String (List ServingRow) :=
  execute file (exactLookupRequest request docIds)

def exactIndexOf (extensionFiles : ExtensionFileMetadata) (file : FileDescriptor) : Option ExtensionFile :=
  (extensionFiles.lookup file.filePath).bind exactIndexExtensionFile

/-- The loop of `maybe_execute_exact_lookup`. -/
def exactLookupLoop (extensionFiles : ExtensionFileMetadata) (predicates : List ExactLookupPredicate)
    (request : ReadPlan) (limit : Nat) :
    List FileDescriptor → ServingExecutionResult → Except String (Option ServingExecutionResult)
  | [], result => .ok (some result)
  | file :: files, result =>
    match exactIndexOf extensionFiles file with
    | none => .ok none
    | some exactIndex => do
      let docIds ← loadExactLookupDocIds exactIndex.location predicates
      if maxExactLookupDocIds < docIds.length then .ok none
      else if docIds = [] then
        exactLookupLoop extensionFiles predicates request limit files result
      else
        let newRows ← executeExactLookupFile execute request file docIds
        exactLookupLoop extensionFiles predicates request limit files
          { result with
            rows := mergeRows text result.rows newRows request limit
            filesSelected := result.filesSelected + 1
            estimatedBytes := result.estimatedBytes + file.size }

def maybeExecuteExactLookup (files speedboatFiles : List FileDescriptor)
    (extensionFiles : ExtensionFileMetadata) (request : ReadPlan) (limit : Nat) :
    Except String (Option ServingExecutionResult) :=
  match exactLookupPredicates request with
  | none => .ok none
  | some predicates =>
    if (files ++ speedboatFiles).all fun file => (exactIndexOf extensionFiles file).isSome then
      exactLookupLoop text loadExactLookupDocIds execute extensionFiles predicates request limit
        (files ++ speedboatFiles) { artifactsUsed := ["exact-index"] }
    else .ok none

end

end PowdrrEngine
