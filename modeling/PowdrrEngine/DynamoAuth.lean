import PowdrrEngine.DynamoValue
import PowdrrEngine.LibText
import PowdrrEngine.LibRun
import Mathlib

/-! Signed requests of the DynamoDB endpoint. A request names its operation in the `x-amz-target` header;
the `Authorization` header says which headers its signature is made of. Under hashes without collisions the
signature determines the body and the canonical values of the signed headers, and nothing else. -/

namespace PowdrrEngine

open DynamoResult List Run Option

variable {names : List String} {name : String}

/-! ### Headers -/

/-- A header map: names in lower case, each value as its bytes. -/
abbrev HeaderMap := List (String × ByteArray)

namespace HeaderMap

/-- The first value of a header; names are looked up without regard to case. -/
def get (headers : HeaderMap) (name : String) : Option ByteArray :=
  (headers.find? fun header => header.1 = name.toLower).map (·.2)

end HeaderMap

/-- `to_str` of a header value: visible ASCII and tabs only. -/
def headerToStr (value : ByteArray) : Option String :=
  let bytes := value.data.toList
  if bytes.all fun byte => 32 ≤ byte ∧ byte < 127 ∨ byte = 9 then some (String.ofList (bytes.map Char.ofUInt8))
  else none

def DynamoDbError.auth (message : String) : DynamoDbError := ⟨.forbidden, "UnrecognizedClientException", message⟩

def DynamoDbError.readOnly (operation : String) : DynamoDbError :=
  .validation (operation ++ " is disabled while Powdrr is running in read-only mode")

def requireHeaderAscii (headers : HeaderMap) (name : String) : DynamoResult String := do
  let value ← ofOption (headers.get name) (.auth ("Missing required header " ++ name))
  .ofOption (headerToStr value) (.auth ("Header " ++ name ++ " was not valid ASCII"))

def optionalHeaderAscii (headers : HeaderMap) (name : String) : DynamoResult (Option String) :=
  match headers.get name with
  | none => .ok none
  | some value =>
    (ofOption (headerToStr value) (.auth ("Header " ++ name ++ " was not valid ASCII"))).map some

def stripPrefix (start text : String) : Option String := (start.toList.isPrefixOf? text.toList).map String.ofList

def dynamodbTargetPrefix : String := "DynamoDB_20120810."

def parseTarget (headers : HeaderMap) : DynamoResult String := do
  let value ← ofOption (headers.get "x-amz-target") (.validation "Missing x-amz-target header")
  let target ← ofOption (headerToStr value) (.validation "x-amz-target header was not valid ASCII")
  .ofOption (stripPrefix dynamodbTargetPrefix target) (.validation "Unsupported x-amz-target prefix")

/-! ### The Authorization header -/

structure ParsedSigV4Authorization where
  accessKeyId : String
  credentialDate : String
  region : String
  service : String
  signedHeaders : List String
  signature : String

def splitOnce (separator : Char) (text : List Char) : Option (List Char × List Char) :=
  match text.dropWhile (· ≠ separator) with
  | [] => none
  | _ :: rest => some (text.takeWhile (· ≠ separator), rest)

def trimText (text : List Char) : List Char :=
  ((text.dropWhile Char.isWhitespace).reverse.dropWhile Char.isWhitespace).reverse

/-- The credential, the signed headers and the signature, as far as they were read. -/
structure SigV4Segments where
  credential : Option (List Char) := none
  signedHeaders : Option (List Char) := none
  signature : Option (List Char) := none

/-- One segment of the header: the last of several segments of one key counts, other keys are ignored. -/
def SigV4Segments.read (found : SigV4Segments) (segment : List Char) : DynamoResult SigV4Segments := do
  let (key, value) ← ofOption (splitOnce '=' (trimText segment)) (.auth "Authorization header was malformed")
  return match String.ofList key with
    | "Credential" => { found with credential := some value }
    | "SignedHeaders" => { found with signedHeaders := some value }
    | "Signature" => { found with signature := some value }
    | _ => found

def parseSigv4Authorization (auth : String) : DynamoResult ParsedSigV4Authorization := do
  let remainder ← ofOption ("AWS4-HMAC-SHA256 ".toList.isPrefixOf? auth.toList)
    (.auth "Unsupported Authorization algorithm")
  let found ← (remainder.splitOn ',').foldlM SigV4Segments.read {}
  let credential ← ofOption found.credential (.auth "Authorization header did not contain a Credential")
  let signedHeaders ← ofOption found.signedHeaders (.auth "Authorization header did not contain SignedHeaders")
  let signature ← ofOption found.signature (.auth "Authorization header did not contain Signature")
  match (credential.splitOn '/').map String.ofList with
  | [accessKeyId, credentialDate, region, service, "aws4_request"] =>
    let signedHeaders := ((signedHeaders.splitOn ';').filter (· ≠ [])).map String.ofList
    if signedHeaders = [] then .error (.error (.auth "SignedHeaders must not be empty"))
    else if "host" ∉ signedHeaders then .error (.error (.auth "SignedHeaders must include host"))
    else if "x-amz-date" ∉ signedHeaders then .error (.error (.auth "SignedHeaders must include x-amz-date"))
    else .ok { accessKeyId, credentialDate, region, service, signedHeaders, signature := String.ofList signature }
  | _ => .error (.error (.auth "Credential scope was malformed"))

/-! ### Signatures -/

/-- What the endpoint calls: the hashes, the state's secret keys, and the calendar, which reads a timestamp
into its date and its milliseconds. Setting up an HMAC never fails. -/
structure SigV4Env where
  sha256 : ByteArray → ByteArray
  hmacSha256 : ByteArray → ByteArray → ByteArray
  lookupSecretAccessKey : String → DynamoResult (Option String)
  parseTimestamp : String → Option (String × Int)

def hexEncode (bytes : ByteArray) : String :=
  String.ofList (bytes.data.toList.flatMap fun byte => [Nat.digitChar (byte.toNat / 16), Nat.digitChar (byte.toNat % 16)])

def splitWhitespace (text : List Char) : List (List Char) := (text.splitOnP Char.isWhitespace).filter (· ≠ [])

def canonicalizeHeaderValue (value : String) : String :=
  String.ofList ([' '].intercalate (splitWhitespace value.toList))

def canonicalHeaders (headers : HeaderMap) : List String → DynamoResult String
  | [] => .ok ""
  | name :: names => do
    let value ← requireHeaderAscii headers name
    let canonical ← canonicalHeaders headers names
    return name ++ ":" ++ canonicalizeHeaderValue value ++ "\n" ++ canonical

def sigv4AllowedClockSkewMinutes : Int := 15

def validateSigv4RequestTime (env : SigV4Env) (now : Int) (amzDate credentialDate : String) : DynamoResult Unit := do
  let (date, timestamp) ← ofOption (env.parseTimestamp amzDate)
    (.auth "x-amz-date was not a valid SigV4 timestamp")
  if credentialDate ≠ date then .error (.error (.auth "Credential scope date did not match x-amz-date"))
  else if ((now - timestamp).natAbs / 60000 : Int) > sigv4AllowedClockSkewMinutes then
    .error (.error (.auth "x-amz-date was outside the allowed clock skew"))
  else .ok ()

namespace SigV4Env

variable (env : SigV4Env)

def sha256Hex (bytes : ByteArray) : String := hexEncode (env.sha256 bytes)

def sigv4Signature (secretAccessKey credentialDate region service stringToSign : String) : String :=
  let kDate := env.hmacSha256 ("AWS4" ++ secretAccessKey).toUTF8 credentialDate.toUTF8
  let kRegion := env.hmacSha256 kDate region.toUTF8
  let kService := env.hmacSha256 kRegion service.toUTF8
  let kSigning := env.hmacSha256 kService "aws4_request".toUTF8
  hexEncode (env.hmacSha256 kSigning stringToSign.toUTF8)

/-- The signature that the parts of a request must have. -/
def expectedSignature (parsed : ParsedSigV4Authorization) (secretAccessKey amzDate canonicalHeaders payloadHash : String) :
    String :=
  let signedHeaders := ";".intercalate parsed.signedHeaders
  let canonicalRequest := "POST\n/\n\n" ++ (canonicalHeaders ++ ("\n" ++ signedHeaders ++ "\n" ++ payloadHash))
  let scope := parsed.credentialDate ++ "/" ++ parsed.region ++ "/" ++ parsed.service ++ "/aws4_request"
  let stringToSign := "AWS4-HMAC-SHA256\n" ++ (amzDate ++ "\n" ++ (scope ++ "\n" ++ env.sha256Hex canonicalRequest.toUTF8))
  env.sigv4Signature secretAccessKey parsed.credentialDate parsed.region parsed.service stringToSign

/-- The access key of an accepted request. -/
def authenticateRequest (now : Int) (headers : HeaderMap) (bodyBytes : ByteArray) : DynamoResult String := do
  let authHeader ← ofOption (headers.get "authorization") (.auth "Missing Authorization header")
  let auth ← ofOption (headerToStr authHeader) (.auth "Authorization header was not valid ASCII")
  let parsed ← parseSigv4Authorization auth
  if parsed.service ≠ "dynamodb" then
    .error (.error (.auth ("SigV4 service must be dynamodb, got " ++ parsed.service)))
  else
    let found ← env.lookupSecretAccessKey parsed.accessKeyId
    let secretAccessKey ← ofOption found (.auth ("Unknown access key " ++ parsed.accessKeyId))
    let amzDate ← requireHeaderAscii headers "x-amz-date"
    validateSigv4RequestTime env now amzDate parsed.credentialDate
    let payloadHash := env.sha256Hex bodyBytes
    let contentSha256 ← optionalHeaderAscii headers "x-amz-content-sha256"
    if contentSha256.any (· ≠ payloadHash) then
      .error (.error (.auth "x-amz-content-sha256 did not match the request body"))
    else
      let canonical ← canonicalHeaders headers parsed.signedHeaders
      if env.expectedSignature parsed secretAccessKey amzDate canonical payloadHash ≠ parsed.signature then
        .error (.error (.auth "Signature did not match"))
      else .ok parsed.accessKeyId

end SigV4Env

/-! ### Operations -/

inductive DynamoDbOperation where
  | listTables | describeTable | getItem | putItem | updateItem | deleteItem | batchGetItem | batchWriteItem
  | query | scan
  deriving DecidableEq

namespace DynamoDbOperation

def target : DynamoDbOperation → String
  | .listTables => "ListTables" | .describeTable => "DescribeTable" | .getItem => "GetItem" | .putItem => "PutItem"
  | .updateItem => "UpdateItem" | .deleteItem => "DeleteItem" | .batchGetItem => "BatchGetItem"
  | .batchWriteItem => "BatchWriteItem" | .query => "Query" | .scan => "Scan"

def all : List DynamoDbOperation :=
  [.listTables, .describeTable, .getItem, .putItem, .updateItem, .deleteItem, .batchGetItem, .batchWriteItem, .query, .scan]

def ofTarget (target : String) : Option DynamoDbOperation := all.find? (·.target = target)

def isWrite : DynamoDbOperation → Bool
  | .putItem | .updateItem | .deleteItem | .batchWriteItem => true
  | _ => false

theorem target_of_ofTarget {text : String} {op : DynamoDbOperation} (h : ofTarget text = some op) :
    op.target = text := by
  have hfound := find?_some h
  exact of_decide_eq_true hfound

theorem ofTarget_target (op : DynamoDbOperation) : ofTarget op.target = some op := by
  cases op <;> decide

end DynamoDbOperation

structure WireRequest where
  headers : HeaderMap
  bodyBytes : ByteArray

def requestPayload (fromSlice : ByteArray → Except String Value) (bodyBytes : ByteArray) : DynamoResult Value :=
  if bodyBytes.data.isEmpty then .ok (.object []) else
    match fromSlice bodyBytes with
    | .ok value => .ok value
    | .error e => .validation ("Request body was not valid JSON: " ++ e)

/-- The operation of a request and its payload, as they are handed to the operation's handler. -/
def dynamodbApi (env : SigV4Env) (fromSlice : ByteArray → Except String Value) (readOnly : Bool) (now : Int)
    (request : WireRequest) : DynamoResult (DynamoDbOperation × Value) := do
  let _ ← env.authenticateRequest now request.headers request.bodyBytes
  let target ← parseTarget request.headers
  if readOnly && (DynamoDbOperation.ofTarget target).any (·.isWrite) then .error (.error (.readOnly target))
  else
    let payload ← requestPayload fromSlice request.bodyBytes
    let operation ← ofOption (DynamoDbOperation.ofTarget target)
      (.validation ("Unsupported x-amz-target " ++ target))
    return (operation, payload)

/-! ### Hashes without collisions -/

theorem hexEncode_injective : Function.Injective hexEncode := by
  have hdigit : ∀ m < 16, ∀ n < 16, Nat.digitChar m = Nat.digitChar n → m = n := by decide
  have hbyte : ∀ a b : UInt8, Nat.digitChar (a.toNat / 16) = Nat.digitChar (b.toNat / 16) →
      Nat.digitChar (a.toNat % 16) = Nat.digitChar (b.toNat % 16) → a = b := by
    intro a b hhigh hlow
    have ha := a.toNat_lt
    have hb := b.toNat_lt
    have hhigh' := hdigit _ (by omega) _ (by omega) hhigh
    have hlow' := hdigit _ (by omega) _ (by omega) hlow
    exact UInt8.toNat_inj.mp (by omega)
  have hbytes : Function.Injective
      (List.flatMap fun byte : UInt8 => [Nat.digitChar (byte.toNat / 16), Nat.digitChar (byte.toNat % 16)]) := by
    intro l
    induction l with
    | nil => intro k h; cases k <;> simp_all
    | cons a l ih =>
      intro k h
      cases k with
      | nil => simp at h
      | cons b k =>
        simp only [flatMap_cons, cons_append, nil_append, cons.injEq] at h
        rw [hbyte a b h.1 h.2.1, ih h.2.2]
  intro a b h
  exact ByteArray.ext (Array.toList_inj.mp (hbytes (String.ofList_injective h)))

theorem newline_notMem_header {value : ByteArray} {text : String} (h : headerToStr value = some text) :
    '\n' ∉ text.toList := by
  unfold headerToStr at h
  dsimp only at h
  split at h
  · rename_i hall
    cases h
    rw [String.toList_ofList]
    intro hmem
    obtain ⟨byte, hbyte, heq⟩ := mem_map.mp hmem
    have hten : byte = 10 := UInt8.toNat_inj.mp (congrArg Char.toNat heq)
    subst hten
    exact absurd (all_eq_true.mp hall 10 hbyte) (by decide)
  · cases h

variable {headers : HeaderMap}

theorem newline_notMem_required {value : String}
    (h : requireHeaderAscii headers name = .ok value) : '\n' ∉ value.toList := by
  obtain ⟨bytes, -, hvalue⟩ := exists_ok_of_bind h
  exact newline_notMem_header (ofOption_eq_ok.mp hvalue)

theorem notMem_of_mem_splitOnP {α : Type} {p : α → Bool} {l piece : List α} {x : α} (hx : p x = true)
    (hpiece : piece ∈ l.splitOnP p) : x ∉ piece := by
  induction l generalizing piece with
  | nil =>
    rw [splitOnP_nil, mem_singleton] at hpiece
    exact hpiece ▸ not_mem_nil
  | cons a l ih =>
    rw [splitOnP_cons_eq_if_modifyHead] at hpiece
    split at hpiece
    · rcases mem_cons.mp hpiece with rfl | hpiece
      · exact not_mem_nil
      · exact ih hpiece
    cases hsplit : l.splitOnP p with
    | nil =>
      rw [hsplit] at hpiece
      cases hpiece
    | cons first rest =>
      rw [hsplit] at hpiece ih
      rcases mem_cons.mp hpiece with rfl | hpiece
      · have hfirst := ih mem_cons_self
        grind
      · exact ih (mem_cons_of_mem _ hpiece)

theorem newline_notMem_canonicalize (value : String) : '\n' ∉ (canonicalizeHeaderValue value).toList := by
  have hwords : ∀ words : List (List Char), (∀ word ∈ words, '\n' ∉ word) → '\n' ∉ [' '].intercalate words := by
    intro words hwords
    induction words with
    | nil => simp
    | cons word words ih =>
      obtain ⟨hword, hrest⟩ := forall_mem_cons.mp hwords
      cases words with
      | nil => simpa using hword
      | cons next words => simpa [intercalate_cons_cons, hword] using ih hrest
  rw [canonicalizeHeaderValue, String.toList_ofList]
  exact hwords _ fun word hword => notMem_of_mem_splitOnP (by decide) (mem_of_mem_filter hword)

variable {headers' : HeaderMap}

theorem canonicalHeaders_inj {c c' t t' : String} (hc : canonicalHeaders headers names = .ok c)
    (hc' : canonicalHeaders headers' names = .ok c') (h : c ++ t = c' ++ t') :
    t = t' ∧ ∀ name ∈ names, ∃ value value', requireHeaderAscii headers name = .ok value ∧
      requireHeaderAscii headers' name = .ok value' ∧
      canonicalizeHeaderValue value = canonicalizeHeaderValue value' := by
  induction names generalizing c c' with
  | nil =>
    cases hc
    cases hc'
    exact ⟨by simpa using h, by simp⟩
  | cons name names ih =>
    obtain ⟨value, hvalue, hc⟩ := exists_ok_of_bind hc
    obtain ⟨rest, hrest, hc⟩ := exists_ok_of_bind hc
    obtain ⟨value', hvalue', hc'⟩ := exists_ok_of_bind hc'
    obtain ⟨rest', hrest', hc'⟩ := exists_ok_of_bind hc'
    cases hc
    cases hc'
    have hglue : canonicalizeHeaderValue value ++ "\n" ++ (rest ++ t) =
        canonicalizeHeaderValue value' ++ "\n" ++ (rest' ++ t') := by
      refine (String.append_right_inj (name ++ ":")).mp ?_
      simpa only [String.append_assoc] using h
    obtain ⟨hsame, htail⟩ := Text.glue_inj_of_notMem_left (newline_notMem_canonicalize _)
      (newline_notMem_canonicalize _) hglue
    obtain ⟨ht, hnames⟩ := ih hrest hrest' htail
    exact ⟨ht, forall_mem_cons.mpr ⟨⟨value, value', hvalue, hvalue', hsame⟩, hnames⟩⟩

namespace SigV4Env

variable {env : SigV4Env} {parsed : ParsedSigV4Authorization}

/-- Hashes without collisions. -/
structure CollisionFree (env : SigV4Env) : Prop where
  sha256 : Function.Injective env.sha256
  hmacSha256 : ∀ key, Function.Injective (env.hmacSha256 key)

theorem CollisionFree.sha256Hex (h : env.CollisionFree) : Function.Injective env.sha256Hex :=
  hexEncode_injective.comp h.sha256

theorem CollisionFree.canonical_eq (h : env.CollisionFree) {secret a a' c c' payload payload' : String}
    (ha : '\n' ∉ a.toList) (ha' : '\n' ∉ a'.toList)
    (heq : env.expectedSignature parsed secret a c payload = env.expectedSignature parsed secret a' c' payload') :
    c ++ ("\n" ++ ";".intercalate parsed.signedHeaders ++ "\n" ++ payload) =
      c' ++ ("\n" ++ ";".intercalate parsed.signedHeaders ++ "\n" ++ payload') := by
  have hsign := String.toByteArray_inj.mp (h.hmacSha256 _ (hexEncode_injective heq))
  obtain ⟨-, hrest⟩ := Text.glue_inj_of_notMem_left (c := '\n') ha ha' ((String.append_right_inj _).mp hsign)
  have hhash := h.sha256Hex ((String.append_right_inj _).mp hrest)
  exact (String.append_right_inj _).mp (String.toByteArray_inj.mp hhash)

structure Accepted (env : SigV4Env) (headers : HeaderMap) (bodyBytes : ByteArray) (parsed : ParsedSigV4Authorization)
    (secret amzDate canonical : String) : Prop where
  secretKey : env.lookupSecretAccessKey parsed.accessKeyId = .ok (some secret)
  date : requireHeaderAscii headers "x-amz-date" = .ok amzDate
  canonicalHeaders : canonicalHeaders headers parsed.signedHeaders = .ok canonical
  signature : env.expectedSignature parsed secret amzDate canonical (env.sha256Hex bodyBytes) = parsed.signature

/-- The parsed `Authorization` header. -/
def authorization (headers : HeaderMap) : Option ParsedSigV4Authorization :=
  (headers.get "authorization").bind fun value => (headerToStr value).bind fun auth =>
    (parseSigv4Authorization auth).toOption

theorem accepted_of_authenticate {now : Int} {bodyBytes : ByteArray} {key : String}
    (h : env.authenticateRequest now headers bodyBytes = .ok key) :
    ∃ parsed secret amzDate canonical, authorization headers = some parsed ∧
      env.Accepted headers bodyBytes parsed secret amzDate canonical := by
  obtain ⟨value, hvalue, h⟩ := exists_ok_of_bind h
  obtain ⟨auth, hauth, h⟩ := exists_ok_of_bind h
  obtain ⟨parsed, hparsed, h⟩ := exists_ok_of_bind h
  split at h
  · cases h
  obtain ⟨found, hfound, h⟩ := exists_ok_of_bind h
  obtain ⟨secret, hsecret, h⟩ := exists_ok_of_bind h
  obtain ⟨amzDate, hdate, h⟩ := exists_ok_of_bind h
  obtain ⟨_, -, h⟩ := exists_ok_of_bind h
  obtain ⟨_, -, h⟩ := exists_ok_of_bind h
  split at h
  · cases h
  obtain ⟨canonical, hcanonical, h⟩ := exists_ok_of_bind h
  split at h
  · cases h
  · rename_i hsignature
    refine ⟨parsed, secret, amzDate, canonical, ?_, ?_, hdate, hcanonical, not_not.mp hsignature⟩
    · simp [authorization, ofOption_eq_ok.mp hvalue, ofOption_eq_ok.mp hauth, hparsed, Except.toOption]
    · rw [hfound, ofOption_eq_ok.mp hsecret]

/-- **What a signature binds.** Two accepted requests with one `Authorization` header have the same body and
the same canonical value for every signed header. -/
theorem Accepted.eq_of_authorization (hfree : env.CollisionFree) {body body' : ByteArray}
    {secret secret' amzDate amzDate' c c' : String} (h : env.Accepted headers body parsed secret amzDate c)
    (h' : env.Accepted headers' body' parsed secret' amzDate' c') :
    body = body' ∧ ∀ name ∈ parsed.signedHeaders, ∃ value value', requireHeaderAscii headers name = .ok value ∧
      requireHeaderAscii headers' name = .ok value' ∧
      canonicalizeHeaderValue value = canonicalizeHeaderValue value' := by
  obtain rfl : secret = secret' := some.inj (Except.ok.inj (h.secretKey.symm.trans h'.secretKey))
  have hcanonical := hfree.canonical_eq (newline_notMem_required h.date) (newline_notMem_required h'.date)
    (h.signature.trans h'.signature.symm)
  obtain ⟨htail, hvalues⟩ := canonicalHeaders_inj h.canonicalHeaders h'.canonicalHeaders hcanonical
  exact ⟨hfree.sha256Hex ((String.append_right_inj _).mp htail), hvalues⟩

end SigV4Env

open SigV4Env

variable {env : SigV4Env} {fromSlice : ByteArray → Except String Value} {readOnly : Bool} {now : Int}
  {request : WireRequest} {op : DynamoDbOperation} {payload : Value}

theorem dynamodbApi_eq_ok : dynamodbApi env fromSlice readOnly now request = .ok (op, payload) ↔
    (∃ key, env.authenticateRequest now request.headers request.bodyBytes = .ok key) ∧
      parseTarget request.headers = .ok op.target ∧ (readOnly && op.isWrite) = false ∧
      requestPayload fromSlice request.bodyBytes = .ok payload := by
  constructor
  · intro h
    obtain ⟨key, hkey, h⟩ := exists_ok_of_bind h
    obtain ⟨target, htarget, h⟩ := exists_ok_of_bind h
    split at h
    · cases h
    rename_i hwrite
    obtain ⟨_, hpayload, h⟩ := exists_ok_of_bind h
    obtain ⟨_, hop, h⟩ := exists_ok_of_bind h
    cases h
    have hop := ofOption_eq_ok.mp hop
    rw [hop] at hwrite
    exact ⟨⟨key, hkey⟩, DynamoDbOperation.target_of_ofTarget hop ▸ htarget, Bool.eq_false_iff.mpr hwrite, hpayload⟩
  · rintro ⟨⟨key, hkey⟩, htarget, hwrite, hpayload⟩
    refine bind_eq_ok.mpr ⟨key, hkey, bind_eq_ok.mpr ⟨_, htarget, ?_⟩⟩
    rw [DynamoDbOperation.ofTarget_target, any_some, if_neg (Bool.eq_false_iff.mp hwrite)]
    exact bind_eq_ok.mpr ⟨payload, hpayload, rfl⟩

theorem toLower_target : "x-amz-target".toLower = "x-amz-target" := by decide +kernel

theorem required_of_parseTarget (h : parseTarget headers = .ok op.target)
    (hname : name.toLower = "x-amz-target") : requireHeaderAscii headers name = .ok (dynamodbTargetPrefix ++ op.target) := by
  obtain ⟨value, hvalue, h⟩ := exists_ok_of_bind h
  obtain ⟨text, htext, h⟩ := exists_ok_of_bind h
  obtain ⟨rest, hrest, heq⟩ := map_eq_some_iff.mp (ofOption_eq_ok.mp h)
  have hget : headers.get name = headers.get "x-amz-target" := by
    rw [HeaderMap.get, HeaderMap.get, hname, toLower_target]
  refine bind_eq_ok.mpr ⟨value, ?_, ?_⟩
  · rw [hget, ofOption_eq_ok.mp hvalue]
    rfl
  · rw [ofOption_eq_ok.mp htext, ← heq]
    have hwhole := isPrefixOf?_eq_some_iff_append_eq.mp hrest
    exact congrArg Except.ok (String.toList_inj.mp (by rw [String.toList_append, String.toList_ofList, hwhole]))

/-! ### Another operation under the same signature -/

def HeaderMap.retarget (headers : HeaderMap) (op : DynamoDbOperation) : HeaderMap :=
  ("x-amz-target", (dynamodbTargetPrefix ++ op.target).toUTF8) :: headers.filter (·.1 ≠ "x-amz-target")

theorem HeaderMap.get_retarget (hname : name.toLower ≠ "x-amz-target") :
    (headers.retarget op).get name = headers.get name := by
  unfold get retarget
  rw [find?_cons_of_neg (by simpa using hname.symm), find?_filter]
  congr 2
  funext header
  by_cases h : header.1 = name.toLower <;> simp [h, hname]

theorem parseTarget_retarget (headers : HeaderMap) (op : DynamoDbOperation) :
    parseTarget (headers.retarget op) = .ok op.target := by
  have hget : (headers.retarget op).get "x-amz-target" = some (dynamodbTargetPrefix ++ op.target).toUTF8 := by
    rw [HeaderMap.get, HeaderMap.retarget, find?_cons_of_pos (by simp [toLower_target])]
    rfl
  unfold parseTarget
  rw [hget]
  cases op <;> decide +kernel

theorem canonicalHeaders_congr (h : ∀ name ∈ names, headers'.get name = headers.get name) :
    canonicalHeaders headers' names = canonicalHeaders headers names := by
  induction names with
  | nil => rfl
  | cons name names ih =>
    obtain ⟨hname, hnames⟩ := forall_mem_cons.mp h
    rw [canonicalHeaders, canonicalHeaders, ih hnames, requireHeaderAscii, hname, ← requireHeaderAscii]

theorem SigV4Env.authenticateRequest_congr {bodyBytes : ByteArray}
    (hauth : headers'.get "authorization" = headers.get "authorization")
    (hdate : headers'.get "x-amz-date" = headers.get "x-amz-date")
    (hsha : headers'.get "x-amz-content-sha256" = headers.get "x-amz-content-sha256")
    (hsigned : ∀ parsed, authorization headers = some parsed →
      ∀ name ∈ parsed.signedHeaders, headers'.get name = headers.get name) :
    env.authenticateRequest now headers' bodyBytes = env.authenticateRequest now headers bodyBytes := by
  unfold authorization at hsigned
  simp only [authenticateRequest, requireHeaderAscii, optionalHeaderAscii, hauth, hdate, hsha]
  cases hvalue : headers.get "authorization" with
  | none => rfl
  | some value =>
    rw [hvalue, bind_some] at hsigned
    simp only [ofOption, ok_bind]
    cases htext : headerToStr value with
    | none => rfl
    | some text =>
      rw [htext, bind_some] at hsigned
      simp only [ok_bind]
      cases hparsed : parseSigv4Authorization text with
      | error e => rfl
      | ok parsed =>
        rw [hparsed] at hsigned
        simp [ok_bind, canonicalHeaders_congr (hsigned parsed rfl)]

/-- Two requests carry one `Authorization` header. -/
def SameAuthorization (request request' : WireRequest) : Prop :=
  request.headers.get "authorization" = request'.headers.get "authorization"

def SignsTarget (headers : HeaderMap) : Prop :=
  ∃ parsed, authorization headers = some parsed ∧ ∃ name ∈ parsed.signedHeaders, name.toLower = "x-amz-target"

theorem dynamodbApi_retarget (h : dynamodbApi env fromSlice readOnly now request = .ok (op, payload))
    (hunsigned : ¬ SignsTarget request.headers) {other : DynamoDbOperation} (hwrite : (readOnly && other.isWrite) = false) :
    SameAuthorization ⟨request.headers.retarget other, request.bodyBytes⟩ request ∧
      dynamodbApi env fromSlice readOnly now ⟨request.headers.retarget other, request.bodyBytes⟩ = .ok (other, payload) := by
  obtain ⟨⟨key, hkey⟩, -, -, hpayload⟩ := dynamodbApi_eq_ok.mp h
  have hauth : (request.headers.retarget other).get "authorization" = request.headers.get "authorization" :=
    HeaderMap.get_retarget (by decide +kernel)
  refine ⟨hauth, dynamodbApi_eq_ok.mpr ⟨⟨key, ?_⟩, parseTarget_retarget _ other, hwrite, hpayload⟩⟩
  rw [authenticateRequest_congr hauth (HeaderMap.get_retarget (by decide +kernel))
    (HeaderMap.get_retarget (by decide +kernel)) fun parsed hparsed name hname =>
      HeaderMap.get_retarget fun htarget => hunsigned ⟨parsed, hparsed, name, hname, htarget⟩]
  exact hkey

/-- **What a captured request can be replayed as.** Every accepted request with the same `Authorization`
header has the same body; all of those that reach a handler reach the same one if and only if the target
header is signed. -/
theorem replay_iff (hfree : env.CollisionFree)
    (h : dynamodbApi env fromSlice readOnly now request = .ok (op, payload)) :
    (∀ now' request' key, SameAuthorization request' request →
      env.authenticateRequest now' request'.headers request'.bodyBytes = .ok key →
      request'.bodyBytes = request.bodyBytes) ∧
    ((∀ readOnly' now' request' op' payload', SameAuthorization request' request →
        dynamodbApi env fromSlice readOnly' now' request' = .ok (op', payload') → op' = op) ↔
      SignsTarget request.headers) := by
  obtain ⟨⟨key, hkey⟩, htarget, -, -⟩ := dynamodbApi_eq_ok.mp h
  obtain ⟨parsed, secret, amzDate, canonical, hparsed, haccepted⟩ := accepted_of_authenticate hkey
  have hbound : ∀ {now' : Int} {request' : WireRequest} {key' : String}, SameAuthorization request' request →
      env.authenticateRequest now' request'.headers request'.bodyBytes = .ok key' →
      ∃ secret' amzDate' canonical',
        env.Accepted request'.headers request'.bodyBytes parsed secret' amzDate' canonical' := by
    intro now' request' key' hsame hkey'
    obtain ⟨parsed', secret', amzDate', canonical', hparsed', haccepted'⟩ := accepted_of_authenticate hkey'
    rw [authorization, hsame] at hparsed'
    cases hparsed'.symm.trans hparsed
    exact ⟨_, _, _, haccepted'⟩
  refine ⟨fun now' request' key' hsame hkey' => ?_, fun hbinds => ?_, ?_⟩
  · obtain ⟨_, _, _, haccepted'⟩ := hbound hsame hkey'
    exact (haccepted'.eq_of_authorization hfree haccepted).1
  · by_contra hunsigned
    -- the other operation is a read, which is served in read-only mode too
    obtain ⟨other, hne, hread⟩ : ∃ other : DynamoDbOperation, other ≠ op ∧ other.isWrite = false := by
      by_cases hquery : op = .query
      · exact ⟨.scan, by simp [hquery], rfl⟩
      · exact ⟨.query, fun heq => hquery heq.symm, rfl⟩
    obtain ⟨hsame, hother⟩ := dynamodbApi_retarget h hunsigned (Bool.and_eq_false_iff.mpr (Or.inr hread))
    exact hne (hbinds _ _ _ _ _ hsame hother)
  rintro ⟨parsed', hparsed', name, hname, hlower⟩ readOnly' now' request' op' payload' hsame h'
  cases hparsed'.symm.trans hparsed
  obtain ⟨⟨key', hkey'⟩, htarget', -, -⟩ := dynamodbApi_eq_ok.mp h'
  obtain ⟨_, _, _, haccepted'⟩ := hbound hsame hkey'
  obtain ⟨value', value, hvalue', hvalue, hcanonical⟩ := (haccepted'.eq_of_authorization hfree haccepted).2 name hname
  rw [required_of_parseTarget htarget' hlower] at hvalue'
  rw [required_of_parseTarget htarget hlower] at hvalue
  have hword : ∀ op : DynamoDbOperation, canonicalizeHeaderValue (dynamodbTargetPrefix ++ op.target) =
      dynamodbTargetPrefix ++ op.target := by
    intro op
    cases op <;> decide +kernel
  cases hvalue
  cases hvalue'
  rw [hword, hword] at hcanonical
  have htargets := (String.append_right_inj _).mp hcanonical
  exact some.inj ((op'.ofTarget_target).symm.trans ((congrArg _ htargets).trans op.ofTarget_target))

/-- Hashes that tell all messages apart and give one of them the empty digest; the secret of one access key,
and a calendar of one moment. -/
def sampleEnv (canonicalRequest stringToSign : String) : SigV4Env where
  sha256 := Equiv.swap canonicalRequest.toUTF8 ByteArray.empty
  hmacSha256 := fun _ => Equiv.swap stringToSign.toUTF8 ByteArray.empty
  lookupSecretAccessKey := fun accessKeyId => .ok (if accessKeyId = "AKID" then some "secret" else none)
  parseTimestamp := fun timestamp => if timestamp = "20240102T030405Z" then some ("20240102", 1704164645000) else none

theorem collisionFree_sampleEnv (canonicalRequest stringToSign : String) :
    (sampleEnv canonicalRequest stringToSign).CollisionFree :=
  ⟨Equiv.injective _, fun _ => Equiv.injective _⟩

def sampleBody : String := "\x7b\"TableName\":\"t\"\x7d"

def samplePayload : Value := .object [("TableName", .string "t")]

/-- The JSON reader, on the body of the samples. -/
def readSample (bytes : ByteArray) : Except String Value :=
  if bytes = sampleBody.toUTF8 then .ok samplePayload else .error "expected value at line 1 column 1"

def sampleRequest (signedHeaders : String) (op : DynamoDbOperation) : WireRequest where
  headers := [("authorization", ("AWS4-HMAC-SHA256 Credential=AKID/20240102/us-east-1/dynamodb/aws4_request, " ++
      "SignedHeaders=" ++ signedHeaders ++ ", Signature=").toUTF8), ("host", "localhost".toUTF8),
    ("x-amz-date", "20240102T030405Z".toUTF8), ("x-amz-target", (dynamodbTargetPrefix ++ op.target).toUTF8)]
  bodyBytes := sampleBody.toUTF8

/-- The environment in which the signature is right for a read that signs the given headers. -/
def signingEnv (canonicalHeaders signedHeaders : String) : SigV4Env :=
  sampleEnv ("POST\n/\n\n" ++ canonicalHeaders ++ "\n" ++ signedHeaders ++ "\n7b225461626c654e616d65223a2274227d")
    "AWS4-HMAC-SHA256\n20240102T030405Z\n20240102/us-east-1/dynamodb/aws4_request\n"

/-- Ten minutes after the request was signed. -/
def sampleNow : Int := 1704165245000

/-- A signature over the target binds it. -/
theorem replay_iff_signed : ∃ (env : SigV4Env) (request : WireRequest), env.CollisionFree ∧
    dynamodbApi env readSample false sampleNow request = .ok (.getItem, samplePayload) ∧
    ∀ readOnly now request' op payload, SameAuthorization request' request →
      dynamodbApi env readSample readOnly now request' = .ok (op, payload) → op = .getItem := by
  let env := signingEnv
    "host:localhost\nx-amz-date:20240102T030405Z\nx-amz-target:DynamoDB_20120810.GetItem\n"
    "host;x-amz-date;x-amz-target"
  let request := sampleRequest "host;x-amz-date;x-amz-target" .getItem
  have h : dynamodbApi env readSample false sampleNow request = .ok (.getItem, samplePayload) := by decide +kernel
  have hsigns : SignsTarget request.headers := by
    unfold SignsTarget
    decide +kernel
  exact ⟨env, request, collisionFree_sampleEnv _ _, h, (replay_iff (collisionFree_sampleEnv _ _) h).2.mpr hsigns⟩

/-- Only the host and the date are signed: a read is replayed as a delete. -/
theorem replayed_as_delete : ∃ env : SigV4Env, ∃ request request' : WireRequest, env.CollisionFree ∧
    SameAuthorization request' request ∧
    dynamodbApi env readSample false sampleNow request = .ok (.getItem, samplePayload) ∧
    dynamodbApi env readSample false sampleNow request' = .ok (.deleteItem, samplePayload) := by
  let env := signingEnv "host:localhost\nx-amz-date:20240102T030405Z\n" "host;x-amz-date"
  let request := sampleRequest "host;x-amz-date" .getItem
  have h : dynamodbApi env readSample false sampleNow request = .ok (.getItem, samplePayload) := by decide +kernel
  have hunsigned : ¬ SignsTarget request.headers := by
    unfold SignsTarget
    decide +kernel
  obtain ⟨hsame, hdelete⟩ := dynamodbApi_retarget h hunsigned (Bool.false_and DynamoDbOperation.deleteItem.isWrite)
  exact ⟨env, request, _, collisionFree_sampleEnv _ _, hsame, h, hdelete⟩

end PowdrrEngine
