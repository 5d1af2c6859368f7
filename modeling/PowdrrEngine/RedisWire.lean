import PowdrrEngine.LibDict
import PowdrrEngine.LibResp
import PowdrrEngine.LibRun

/-! The Redis frontend on one connection. Values are written with their length; an error is written as a line,
and the line quotes what the client has sent: the name of a command that is not known, a subcommand of CLIENT,
a key that has several rows. -/

namespace PowdrrEngine

open Resp List

structure RedisCommandError where
  errPrefix : String := "ERR"
  message : Bytes

abbrev RedisResult := Except RedisCommandError

namespace RedisCommandError

/-- Validation errors, missing namespaces and internal errors differ in their HTTP status only. -/
def validation (message : String) : RedisCommandError where
  message := message.toList

def unsupported (command : Bytes) : RedisCommandError where
  message := "unsupported Redis command ".toList ++ command

def readOnly : RedisCommandError where
  errPrefix := "READONLY"
  message := "This Powdrr Redis frontend is running in read-only mode".toList

def respMessage (e : RedisCommandError) : Bytes := e.errPrefix.toList ++ ' ' :: e.message

end RedisCommandError

def wrongNumber {α : Type} (command : String) : RedisResult α :=
  .error (.validation ("wrong number of arguments for '" ++ command ++ "' command"))

structure RedisCommandResult where
  response : RespValue
  closeConnection : Bool := false

def okResult : RedisCommandResult := ⟨.simpleString "OK".toList, false⟩

structure ResolvedRedisDatabaseBinding where
  tableName : Bytes
  valueField : Option Bytes
  allFields : List Bytes

/-- A row that was found, with its values as bytes; a null value has none. -/
abbrev RedisFieldRow := Dict Bytes (Option Bytes)

/-- What the node and its tables answer to one command. The lookup has the rows of each key. -/
structure RedisTables where
  isReadOnly : Bool := false
  loadRedisDatabaseBinding : Nat → RedisResult ResolvedRedisDatabaseBinding
  lookupRows : ResolvedRedisDatabaseBinding → List Bytes → List Bytes → RedisResult (List (List RedisFieldRow))

inductive RedisCommandName where
  | ping | echo | quit | command | client | hello | readonly | select | get | mget | hget | hmget | hgetall
  | hexists | existsCount

def redisCommandNames : List (String × RedisCommandName) :=
  [("PING", .ping), ("ECHO", .echo), ("QUIT", .quit), ("COMMAND", .command), ("CLIENT", .client),
    ("HELLO", .hello), ("READONLY", .readonly), ("SELECT", .select), ("GET", .get), ("MGET", .mget),
    ("HGET", .hget), ("HMGET", .hmget), ("HGETALL", .hgetall), ("HEXISTS", .hexists), ("EXISTS", .existsCount)]

def toAsciiUppercase (text : Bytes) : Bytes := text.map Char.toUpper

def redisWriteCommandNames : List String :=
  ["APPEND", "DECR", "DECRBY", "DEL", "EXPIRE", "FLUSHALL", "FLUSHDB", "GETSET", "HDEL", "HINCRBY", "HMSET", "HSET",
    "INCR", "INCRBY", "LPOP", "LPUSH", "MSET", "PERSIST", "PSETEX", "RPOP", "RPUSH", "SADD", "SET", "SETEX", "SETNX",
    "UNLINK", "XADD", "ZADD"]

def isKnownRedisWriteCommand (command : Bytes) : Bool := redisWriteCommandNames.any fun name => name.toList = command

/-- `parse::<u32>`: digits, perhaps behind a plus sign. -/
def parseU32 (text : Bytes) : Option Nat :=
  (readNat (if text.head? = some '+' then text.tail else text)).filter (· < 2 ^ 32)

def executePing : List Bytes → RedisResult RedisCommandResult
  | [] => .ok ⟨.simpleString "PONG".toList, false⟩
  | [message] => .ok ⟨.bulkString message, false⟩
  | _ => wrongNumber "ping"

def executeEcho : List Bytes → RedisResult RedisCommandResult
  | [message] => .ok ⟨.bulkString message, false⟩
  | _ => wrongNumber "echo"

def executeQuit : List Bytes → RedisResult RedisCommandResult
  | [] => .ok { okResult with closeConnection := true }
  | _ => wrongNumber "quit"

def executeCommandCommand : List Bytes → RedisCommandResult
  | [] => ⟨.array [], false⟩
  | sub :: _ => if toAsciiUppercase sub = "COUNT".toList then ⟨.integer 0, false⟩ else ⟨.array [], false⟩

def executeClientCommand : List Bytes → RedisResult RedisCommandResult
  | [] => wrongNumber "client"
  | sub :: rest =>
    let name := toAsciiUppercase sub
    if name = "SETINFO".toList then if rest.length ≠ 2 then wrongNumber "client setinfo" else .ok okResult
    else if name = "SETNAME".toList then if rest.length ≠ 1 then wrongNumber "client setname" else .ok okResult
    else if name = "GETNAME".toList then .ok ⟨.nullBulkString, false⟩
    else if name = "ID".toList then .ok ⟨.integer 1, false⟩
    else .error { message := "unsupported CLIENT subcommand ".toList ++ sub }

variable (selectedDb : Nat)

def helloResponse : RespValue :=
  .array [bulk "server", bulk "powdrr", bulk "version", bulk "0.0.1", bulk "proto", .integer 2, bulk "mode",
    bulk "standalone", bulk "role", bulk "master", bulk "db", .integer selectedDb, bulk "modules", .array []]
where
  bulk (text : String) : RespValue := .bulkString text.toList

def executeHello : List Bytes → RedisResult RedisCommandResult
  | [] => .ok ⟨helloResponse selectedDb, false⟩
  | [proto] =>
    match parseU32 proto with
    | none => .error (.validation "HELLO protover must be a positive integer")
    | some version =>
      if version ≠ 2 ∧ version ≠ 3 then .error (.validation "unsupported HELLO protover")
      else .ok ⟨helloResponse selectedDb, false⟩
  | _ => .error (.validation "HELLO only supports an optional proto argument")

/-! ### Reading rows -/

/-- More than one row of a key is an error. -/
def redisRowFromRows (tableName key : Bytes) (rows : List RedisFieldRow) : RedisResult (Option RedisFieldRow) :=
  if rows.length > 1 then
    .error { message := "Redis key ".toList ++ key ++ " matched multiple rows in table ".toList ++ tableName }
  else .ok rows.head?

def redisFieldBytes (row : Option RedisFieldRow) (field : Bytes) : Option Bytes :=
  (row.bind fun row => row.lookup field).join

def optionalBulk : Option Bytes → RespValue
  | some bytes => .bulkString bytes
  | none => .nullBulkString

/-- Fields that the table does not have are not asked for. -/
def selectKnownFields (knownFields fields : List Bytes) : List Bytes :=
  (fields.foldl (fun unique field => if field ∈ unique then unique else unique ++ [field]) []).filter (· ∈ knownFields)

section

variable (tables : RedisTables) (selectedDb : Nat)

def fetchRedisRows (binding : ResolvedRedisDatabaseBinding) (keys select : List Bytes) :
    RedisResult (List (List RedisFieldRow)) :=
  if select.isEmpty then .ok (keys.map fun _ => []) else tables.lookupRows binding keys select

def fetchRedisRow (binding : ResolvedRedisDatabaseBinding) (key : Bytes) (select : List Bytes) :
    RedisResult (Option RedisFieldRow) := do
  let rows ← fetchRedisRows tables binding [key] select
  redisRowFromRows binding.tableName key (rows.head?.getD [])

def fetchRedisValues (keys : List Bytes) : RedisResult (List (Option Bytes)) := do
  let binding ← tables.loadRedisDatabaseBinding selectedDb
  match binding.valueField with
  | none => .error (.validation ("Redis value_field must be configured to use GET, MGET, or EXISTS; use HGET, HMGET, "
      ++ "HGETALL, or HEXISTS for multi-column row access"))
  | some field =>
    let rows ← fetchRedisRows tables binding keys [field]
    (keys.zip rows).mapM fun (key, rows) =>
      (redisRowFromRows binding.tableName key rows).map (redisFieldBytes · field)

/-- Some fields of the row of a key: HGET, HMGET and HEXISTS. -/
def fetchRedisFields (key : Bytes) (fields : List Bytes) : RedisResult (List (Option Bytes)) := do
  let binding ← tables.loadRedisDatabaseBinding selectedDb
  let row ← fetchRedisRow tables binding key (selectKnownFields binding.allFields fields)
  .ok (fields.map (redisFieldBytes row))

def executeSelect (args : List Bytes) : RedisResult Nat :=
  match args with
  | [database] =>
    match parseU32 database with
    | none => .error (.validation "database index must be a non-negative integer")
    | some database => (tables.loadRedisDatabaseBinding database).map fun _ => database
  | _ => wrongNumber "select"

def executeGet : List Bytes → RedisResult RespValue
  | [key] => (fetchRedisValues tables selectedDb [key]).map fun values => optionalBulk values.head?.join
  | _ => wrongNumber "get"

def executeMget : List Bytes → RedisResult RespValue
  | [] => wrongNumber "mget"
  | keys => (fetchRedisValues tables selectedDb keys).map fun values => .array (values.map optionalBulk)

def executeHget : List Bytes → RedisResult RespValue
  | [key, field] => (fetchRedisFields tables selectedDb key [field]).map fun values => optionalBulk values.head?.join
  | _ => wrongNumber "hget"

def executeHmget : List Bytes → RedisResult RespValue
  | key :: field :: fields =>
    (fetchRedisFields tables selectedDb key (field :: fields)).map fun values => .array (values.map optionalBulk)
  | _ => wrongNumber "hmget"

def executeHgetall : List Bytes → RedisResult RespValue
  | [key] => do
    let binding ← tables.loadRedisDatabaseBinding selectedDb
    let row ← fetchRedisRow tables binding key binding.allFields
    .ok (.array (if row.isNone then [] else
      binding.allFields.flatMap fun field => [.bulkString field, optionalBulk (redisFieldBytes row field)]))
  | _ => wrongNumber "hgetall"

def executeHexists : List Bytes → RedisResult RespValue
  | [key, field] => (fetchRedisFields tables selectedDb key [field]).map fun values =>
      .integer (if values.head?.join.isSome then 1 else 0)
  | _ => wrongNumber "hexists"

def executeExists : List Bytes → RedisResult RespValue
  | [] => wrongNumber "exists"
  | keys => (fetchRedisValues tables selectedDb keys).map fun values => .integer (values.countP (·.isSome))

def executeNamed (args : List Bytes) : RedisCommandName → RedisResult RedisCommandResult
  | .ping => executePing args
  | .echo => executeEcho args
  | .quit => executeQuit args
  | .command => .ok (executeCommandCommand args)
  | .client => executeClientCommand args
  | .hello => executeHello selectedDb args
  | .readonly => .ok okResult
  | .select => (executeSelect tables args).map fun _ => okResult
  | .get => (executeGet tables selectedDb args).map ({ response := · })
  | .mget => (executeMget tables selectedDb args).map ({ response := · })
  | .hget => (executeHget tables selectedDb args).map ({ response := · })
  | .hmget => (executeHmget tables selectedDb args).map ({ response := · })
  | .hgetall => (executeHgetall tables selectedDb args).map ({ response := · })
  | .hexists => (executeHexists tables selectedDb args).map ({ response := · })
  | .existsCount => (executeExists tables selectedDb args).map ({ response := · })

/-- The answer of a command and the database selected behind it. -/
def executeRedisCommand : List Bytes → RedisResult RedisCommandResult × Nat
  | [] => (.error (.validation "empty Redis command"), selectedDb)
  | name :: args =>
    let command := toAsciiUppercase name
    if tables.isReadOnly && isKnownRedisWriteCommand command then (.error .readOnly, selectedDb)
    else
      match (redisCommandNames.find? fun entry => entry.1.toList = command).map Prod.snd with
      | none => (.error (.unsupported command), selectedDb)
      | some known => (executeNamed tables selectedDb args known,
          if known matches .select then (executeSelect tables args).toOption.getD selectedDb else selectedDb)

end

/-- The outcomes of the commands that are read from a connection, until one closes it. Each command finds the
tables as they are then. -/
def handleConnection : Nat → List (RedisTables × List Bytes) → List (RedisResult RedisCommandResult)
  | _, [] => []
  | selectedDb, (tables, args) :: commands =>
    match executeRedisCommand tables selectedDb args with
    | (.ok result, selectedDb) =>
      .ok result :: if result.closeConnection then [] else handleConnection selectedDb commands
    | (.error e, selectedDb) => .error e :: handleConnection selectedDb commands

/-- The bytes that are written for an outcome. -/
def responseBytes : RedisResult RedisCommandResult → Bytes
  | .ok result => encodeRespValue result.response
  | .error e => '-' :: e.respMessage ++ "\r\n".toList

def replyOf : RedisResult RedisCommandResult → Reply
  | .ok result => .value result.response
  | .error e => .error e.respMessage

/-! ### The results are read back -/

section

variable {tables : RedisTables} {selectedDb : Nat} {args : List Bytes} {result : RedisCommandResult}

theorem reads_optionalBulk : ∀ bytes, Reads 1 (optionalBulk bytes)
  | some bytes => .bulkString bytes
  | none => .nullBulkString

theorem reads_optionalBulks (values : List (Option Bytes)) : Reads 3 (.array (values.map optionalBulk)) := by
  refine .array fun item hitem => ?_
  obtain ⟨bytes, -, rfl⟩ := mem_map.mp hitem
  exact (reads_optionalBulk bytes).mono

theorem reads_simple {text : String} (h : '\r' ∉ text.toList) : Reads 3 (.simpleString text.toList) :=
  (Reads.simpleString fun hinside => h (hinside.subset mem_cons_self)).mono

theorem reads_ok : Reads 3 okResult.response := reads_simple (by decide)

theorem reads_emptyArray {k : Nat} : Reads (k + 1) (.array []) := .array nofun

theorem reads_helloResponse : Reads 3 (helloResponse selectedDb) := by
  refine .array fun item hitem => ?_
  simp only [mem_cons, not_mem_nil, or_false, helloResponse.bulk] at hitem
  rcases hitem with rfl | rfl | rfl | rfl | rfl | rfl | rfl | rfl | rfl | rfl | rfl | rfl | rfl | rfl <;>
    first
    | exact (Reads.bulkString _).mono
    | exact (Reads.integer _).mono
    | exact reads_emptyArray

theorem reads_hgetall {response : RespValue} (h : executeHgetall tables selectedDb args = .ok response) :
    Reads 3 response := by
  unfold executeHgetall at h
  split at h
  · obtain ⟨binding, -, h⟩ := Run.exists_ok_of_bind h
    obtain ⟨row, -, h⟩ := Run.exists_ok_of_bind h
    cases h
    refine .array fun item hitem => ?_
    split at hitem
    · cases hitem
    obtain ⟨field, -, hitem⟩ := mem_flatMap.mp hitem
    rcases mem_cons.mp hitem with rfl | hitem
    · exact (Reads.bulkString field).mono
    · obtain rfl := mem_singleton.mp hitem
      exact (reads_optionalBulk _).mono
  · cases h

/-- **Every result of a command** is read back: what it has of the client or of a table is in bulk strings. -/
theorem reads_executeNamed {name : RedisCommandName} (h : executeNamed tables selectedDb args name = .ok result) :
    Reads 3 result.response := by
  cases name with
  | ping =>
    simp only [executeNamed, executePing] at h
    split at h <;> cases h
    · exact reads_simple (by decide)
    · exact (Reads.bulkString _).mono
  | echo =>
    simp only [executeNamed, executeEcho] at h
    split at h <;> cases h
    exact (Reads.bulkString _).mono
  | quit =>
    simp only [executeNamed, executeQuit] at h
    split at h <;> cases h
    exact reads_ok
  | command =>
    cases h
    unfold executeCommandCommand
    repeat' split
    · exact reads_emptyArray
    · exact (Reads.integer 0).mono
    · exact reads_emptyArray
  | client =>
    simp only [executeNamed, executeClientCommand] at h
    repeat' split at h
    all_goals cases h
    · exact reads_ok
    · exact reads_ok
    · exact Reads.nullBulkString.mono
    · exact (Reads.integer 1).mono
  | hello =>
    simp only [executeNamed, executeHello] at h
    repeat' split at h
    all_goals cases h
    all_goals exact reads_helloResponse
  | readonly =>
    cases h
    exact reads_ok
  | select =>
    obtain ⟨_, -, rfl⟩ := Run.map_eq_ok.mp h
    exact reads_ok
  | hgetall =>
    obtain ⟨response, hresponse, rfl⟩ := Run.map_eq_ok.mp h
    exact reads_hgetall hresponse
  | get | mget | hget | hmget | hexists | existsCount =>
    obtain ⟨response, hresponse, rfl⟩ := Run.map_eq_ok.mp h
    simp only [executeGet, executeMget, executeHget, executeHmget, executeHexists, executeExists] at hresponse
    split at hresponse
    all_goals first
      | cases hresponse
      | (obtain ⟨values, -, rfl⟩ := Run.map_eq_ok.mp hresponse
         first
         | exact (reads_optionalBulk _).mono
         | exact reads_optionalBulks values
         | exact (Reads.integer _).mono)

end

theorem reads_of_mem_handleConnection {commands : List (RedisTables × List Bytes)} {selectedDb : Nat}
    {result : RedisCommandResult} (h : .ok result ∈ handleConnection selectedDb commands) : Reads 3 result.response := by
  induction commands generalizing selectedDb with
  | nil => cases h
  | cons command commands ih =>
    obtain ⟨tables, args⟩ := command
    have hhead : (executeRedisCommand tables selectedDb args).1 = .ok result → Reads 3 result.response := by
      intro h
      unfold executeRedisCommand at h
      split at h
      · cases h
      dsimp only at h
      split at h
      · cases h
      · split at h
        · cases h
        · exact reads_executeNamed h
    rw [handleConnection] at h
    split at h
    · rename_i first selectedDb' hrun
      rw [hrun] at hhead
      rcases mem_cons.mp h with heq | h
      · exact hhead heq.symm
      · split at h
        · cases h
        · exact ih h
    · rcases mem_cons.mp h with heq | h
      · cases heq
      · exact ih h

/-! ### Broken lines -/

/-- A message that a client does not read as one line. -/
def HasCrlf (text : Bytes) : Prop := crlf <:+: text

/-- An answer that is written as a broken line. -/
def Breaks {α : Type} (answer : RedisResult α) : Prop := ∃ e, answer = .error e ∧ HasCrlf e.respMessage

section

variable (tables : RedisTables) (selectedDb : Nat)

/-- Reading fields of some keys: the binding or the lookup fails with a broken line, or the first key that
has several rows has a CRLF, in itself or in the name of its table. -/
def BreaksRead (keys : List Bytes) (select : ResolvedRedisDatabaseBinding → List Bytes) : Prop :=
  Breaks (tables.loadRedisDatabaseBinding selectedDb) ∨
    ∃ binding, tables.loadRedisDatabaseBinding selectedDb = .ok binding ∧ select binding ≠ [] ∧
      (Breaks (tables.lookupRows binding keys (select binding)) ∨
        ∃ rows entry, tables.lookupRows binding keys (select binding) = .ok rows ∧
          (keys.zip rows).find? (fun entry => entry.2.length > 1) = some entry ∧
          (HasCrlf entry.1 ∨ HasCrlf binding.tableName))

/-- The arguments of a known command that is answered with a broken line. -/
def BreaksArgs (args : List Bytes) : RedisCommandName → Prop
  | .client => ∃ sub ∈ args.head?, HasCrlf sub
  | .select => ∃ text database, args = [text] ∧ parseU32 text = some database ∧
      Breaks (tables.loadRedisDatabaseBinding database)
  | .get => args.length = 1 ∧ BreaksRead tables selectedDb args (·.valueField.toList)
  | .mget | .existsCount => args ≠ [] ∧ BreaksRead tables selectedDb args (·.valueField.toList)
  | .hget | .hexists => args.length = 2 ∧
      BreaksRead tables selectedDb (args.take 1) fun binding => selectKnownFields binding.allFields args.tail
  | .hmget => 2 ≤ args.length ∧
      BreaksRead tables selectedDb (args.take 1) fun binding => selectKnownFields binding.allFields args.tail
  | .hgetall => args.length = 1 ∧ BreaksRead tables selectedDb args (·.allFields)
  | .ping | .echo | .quit | .command | .hello | .readonly => False

/-- A command that is answered with a broken line: its name is not known and has a CRLF, or its arguments
break the line. -/
def BreaksLine : List Bytes → Prop
  | [] => False
  | name :: args =>
    match (redisCommandNames.find? fun entry => entry.1.toList = toAsciiUppercase name).map Prod.snd with
    | none => HasCrlf name
    | some known => BreaksArgs tables selectedDb args known

/-- The database behind a command: that of a SELECT, if there is one of the number. -/
def selectedAfter : List Bytes → Nat
  | [name, text] =>
    if toAsciiUppercase name = "SELECT".toList then
      ((parseU32 text).filter fun database => (tables.loadRedisDatabaseBinding database).isOk).getD selectedDb
    else selectedDb
  | _ => selectedDb

end

/-- No command up to the first QUIT is answered with a broken line. -/
def KeepsLines : Nat → List (RedisTables × List Bytes) → Prop
  | _, [] => True
  | selectedDb, (tables, args) :: commands => ¬ BreaksLine tables selectedDb args ∧
      (args.map toAsciiUppercase ≠ ["QUIT".toList] → KeepsLines (selectedAfter tables selectedDb args) commands)

/-! ### Which commands break the line -/

/-- Upper-casing makes no character below the letters, and changes none. -/
theorem toUpper_eq_iff {c d : Char} (h : d.toNat < 65) : c.toUpper = d ↔ c = d := by
  unfold Char.toUpper
  split
  · rename_i hc
    have hlow : 97 ≤ c.val.toNat := hc.1
    have hhigh : c.val.toNat ≤ 122 := hc.2
    have hupper : (c.val + ('A'.val - 'a'.val)).toNat = c.val.toNat - 32 := by
      rw [UInt32.toNat_add]
      have hoffset : ('A'.val - 'a'.val).toNat = 2 ^ 32 - 32 := rfl
      omega
    have hd : d.val.toNat < 65 := h
    constructor
    · rintro rfl
      simp only at hd
      omega
    · rintro rfl
      omega
  · rfl

section

variable {α β : Type} {x : RedisResult α}

theorem not_hasCrlf {text : Bytes} (h : '\r' ∉ text) : ¬ HasCrlf text := fun hinside => h (hinside.subset mem_cons_self)

/-- A blank is in no CRLF, so that a CRLF is on one side of it. -/
theorem hasCrlf_append_blank (front back : Bytes) :
    HasCrlf (front ++ ' ' :: back) ↔ HasCrlf front ∨ HasCrlf back := by
  induction front with
  | nil => simp [HasCrlf, crlf, infix_cons_iff]
  | cons byte front ih =>
    unfold HasCrlf at ih ⊢
    rw [cons_append, infix_cons_iff, ih, infix_cons_iff, or_assoc]
    cases front <;> simp [crlf]

theorem hasCrlf_append {front back : Bytes} (hfront : '\r' ∉ front) : HasCrlf (front ++ ' ' :: back) ↔ HasCrlf back := by
  rw [hasCrlf_append_blank, or_iff_right (not_hasCrlf hfront)]

theorem hasCrlf_toAsciiUppercase (text : Bytes) : HasCrlf (toAsciiUppercase text) ↔ HasCrlf text := by
  have hcr {c : Char} : c.toUpper = '\r' ↔ c = '\r' := toUpper_eq_iff (by decide)
  have hlf {c : Char} : c.toUpper = '\n' ↔ c = '\n' := toUpper_eq_iff (by decide)
  unfold HasCrlf toAsciiUppercase
  induction text with
  | nil => rfl
  | cons byte text ih =>
    rw [map_cons, infix_cons_iff, infix_cons_iff]
    refine or_congr ?_ ih
    cases text with
    | nil => simp [crlf]
    | cons next text => simp [crlf, cons_prefix_cons, eq_comm (a := '\r'), eq_comm (a := '\n'), hcr, hlf]

theorem breaks_error {e : RedisCommandError} : Breaks (.error e : RedisResult α) ↔ HasCrlf e.respMessage := by
  simp [Breaks]

theorem not_breaks_ok (a : α) : ¬ Breaks (.ok a : RedisResult α) := by
  rintro ⟨e, he, -⟩
  cases he

theorem breaks_map (f : α → β) : Breaks (x.map f) ↔ Breaks x := by
  cases x with
  | error e => exact breaks_error.trans breaks_error.symm
  | ok a => exact iff_of_false (not_breaks_ok _) (not_breaks_ok a)

theorem breaks_bind (f : α → RedisResult β) : Breaks (x >>= f) ↔ Breaks x ∨ ∃ a, x = .ok a ∧ Breaks (f a) := by
  cases x with
  | error e => simp [bind, Except.bind, breaks_error]
  | ok a => simp [bind, Except.bind, not_breaks_ok]

theorem breaks_message {message : Bytes} : Breaks (.error { message } : RedisResult α) ↔ HasCrlf message :=
  breaks_error.trans (hasCrlf_append (show '\r' ∉ "ERR".toList by decide))

/-- The messages of the checks are texts of the code. -/
theorem not_breaks_validation {message : String} (h : '\r' ∉ message.toList) :
    ¬ Breaks (.error (.validation message) : RedisResult α) := fun hbreaks => not_hasCrlf h (breaks_message.mp hbreaks)

theorem breaks_redisRowFromRows {tableName key : Bytes} {rows : List RedisFieldRow} :
    Breaks (redisRowFromRows tableName key rows) ↔ rows.length > 1 ∧ (HasCrlf key ∨ HasCrlf tableName) := by
  unfold redisRowFromRows
  split
  · rename_i hrows
    have hmessage : "Redis key ".toList ++ key ++ " matched multiple rows in table ".toList ++ tableName =
        "Redis key".toList ++ ' ' :: (key ++ ' ' :: ("matched multiple rows in table".toList ++ ' ' :: tableName)) := by
      simp
    rw [breaks_message, hmessage, hasCrlf_append (by decide), hasCrlf_append_blank, hasCrlf_append (by decide),
      and_iff_right hrows]
  · rename_i hrows
    exact iff_of_false (not_breaks_ok _) fun h => hrows h.1

/-- The rows are looked at key by key, and the first key with several of them is the one that is quoted. -/
theorem breaks_mapM_rows {tableName : Bytes} (f : Option RedisFieldRow → β) (entries : List (Bytes × List RedisFieldRow)) :
    Breaks (entries.mapM fun entry => (redisRowFromRows tableName entry.1 entry.2).map f) ↔
      ∃ entry, entries.find? (fun entry => entry.2.length > 1) = some entry ∧
        (HasCrlf entry.1 ∨ HasCrlf tableName) := by
  induction entries with
  | nil => simp [pure, Except.pure, not_breaks_ok]
  | cons entry entries ih =>
    rw [mapM_cons, breaks_bind, breaks_map, breaks_redisRowFromRows, find?_cons]
    by_cases hrows : entry.2.length > 1
    · have hfails : ∀ a, (redisRowFromRows tableName entry.1 entry.2).map f ≠ .ok a := by
        intro a
        rw [redisRowFromRows, if_pos hrows]
        intro h
        cases h
      simp [hrows, hfails]
    · have hrow : (redisRowFromRows tableName entry.1 entry.2).map f = .ok (f entry.2.head?) := by
        rw [redisRowFromRows, if_neg hrows]
        rfl
      simp [hrow, hrows, breaks_bind, ih, pure, Except.pure, not_breaks_ok]

end

section

variable {tables : RedisTables} {selectedDb : Nat}

theorem breaks_fetchRedisRows {binding : ResolvedRedisDatabaseBinding} {keys select : List Bytes} :
    Breaks (fetchRedisRows tables binding keys select) ↔ select ≠ [] ∧ Breaks (tables.lookupRows binding keys select) := by
  unfold fetchRedisRows
  cases select with
  | nil => simp [not_breaks_ok]
  | cons field select => simp

theorem breaks_fetchRedisRow {binding : ResolvedRedisDatabaseBinding} {key : Bytes} {select : List Bytes} :
    Breaks (fetchRedisRow tables binding key select) ↔ select ≠ [] ∧
      (Breaks (tables.lookupRows binding [key] select) ∨
        ∃ rows entry, tables.lookupRows binding [key] select = .ok rows ∧
          ([key].zip rows).find? (fun entry => entry.2.length > 1) = some entry ∧
          (HasCrlf entry.1 ∨ HasCrlf binding.tableName)) := by
  rw [fetchRedisRow, breaks_bind, breaks_fetchRedisRows]
  simp only [breaks_redisRowFromRows]
  cases select with
  | nil => simp [fetchRedisRows]
  | cons field select =>
    have hrow (rows : List (List RedisFieldRow)) :
        ((rows.head?.getD []).length > 1 ∧ (HasCrlf key ∨ HasCrlf binding.tableName)) ↔
        ∃ entry, ([key].zip rows).find? (fun entry => entry.2.length > 1) = some entry ∧
          (HasCrlf entry.1 ∨ HasCrlf binding.tableName) := by
      cases rows with
      | nil => simp
      | cons row rows => simp [and_assoc]
    simp [fetchRedisRows, hrow]

theorem breaks_fetchRedisValues {keys : List Bytes} :
    Breaks (fetchRedisValues tables selectedDb keys) ↔ BreaksRead tables selectedDb keys (·.valueField.toList) := by
  rw [fetchRedisValues, breaks_bind, BreaksRead]
  refine or_congr_right (exists_congr fun binding => and_congr_right fun _ => ?_)
  cases hfield : binding.valueField with
  | none => simpa using not_breaks_validation (by simp)
  | some field =>
    rw [breaks_bind, breaks_fetchRedisRows]
    simp [breaks_mapM_rows, fetchRedisRows]

/-- Something of the row of one key: HGETALL, and the commands that read some of its fields. -/
theorem breaks_readRow {α : Type} {key : Bytes} {select : ResolvedRedisDatabaseBinding → List Bytes}
    {shown : ResolvedRedisDatabaseBinding → Option RedisFieldRow → α} :
    Breaks (do
      let binding ← tables.loadRedisDatabaseBinding selectedDb
      let row ← fetchRedisRow tables binding key (select binding)
      .ok (shown binding row)) ↔ BreaksRead tables selectedDb [key] select := by
  rw [breaks_bind, BreaksRead]
  refine or_congr_right (exists_congr fun binding => and_congr_right fun _ => ?_)
  rw [breaks_bind, breaks_fetchRedisRow]
  simp [not_breaks_ok]

theorem breaks_fetchRedisFields {key : Bytes} {fields : List Bytes} :
    Breaks (fetchRedisFields tables selectedDb key fields) ↔
      BreaksRead tables selectedDb [key] fun binding => selectKnownFields binding.allFields fields :=
  breaks_readRow

theorem not_breaks_wrongNumber {α : Type} {command : String} (h : '\r' ∉ command.toList) :
    ¬ Breaks (wrongNumber command : RedisResult α) := by
  refine not_breaks_validation ?_
  simp [h]

theorem breaks_client {sub : Bytes} {rest : List Bytes} :
    Breaks (executeClientCommand (sub :: rest)) ↔ HasCrlf sub := by
  have hknown {name : String} (heq : toAsciiUppercase sub = name.toList) (hname : '\r' ∉ name.toList) : ¬ HasCrlf sub := by
    rw [← hasCrlf_toAsciiUppercase, heq]
    exact not_hasCrlf hname
  simp only [executeClientCommand]
  repeat' split
  all_goals first
    | exact iff_of_false (not_breaks_wrongNumber (by decide)) (hknown (by assumption) (by decide))
    | exact iff_of_false (not_breaks_ok _) (hknown (by assumption) (by decide))
    | skip
  have hmessage : "unsupported CLIENT subcommand ".toList ++ sub = "unsupported CLIENT subcommand".toList ++ ' ' :: sub := by
    simp
  rw [breaks_message, hmessage, hasCrlf_append (by decide)]

theorem breaks_executeSelect {args : List Bytes} : Breaks (executeSelect tables args) ↔
    ∃ text database, args = [text] ∧ parseU32 text = some database ∧
      Breaks (tables.loadRedisDatabaseBinding database) := by
  unfold executeSelect
  split
  · rename_i text
    split
    · rename_i hparse
      refine iff_of_false (not_breaks_validation (by decide)) ?_
      rintro ⟨_, database, heq, hdatabase, -⟩
      obtain rfl := singleton_inj.mp heq
      rw [hparse] at hdatabase
      cases hdatabase
    · rename_i database hparse
      rw [breaks_map]
      refine ⟨fun h => ⟨text, database, rfl, hparse, h⟩, ?_⟩
      rintro ⟨_, found, heq, hfound, h⟩
      obtain rfl := singleton_inj.mp heq
      rw [hparse] at hfound
      cases hfound
      exact h
  · rename_i hargs
    refine iff_of_false (not_breaks_wrongNumber (by decide)) ?_
    rintro ⟨text, -, rfl, -⟩
    exact hargs text rfl

/-- **A known command** is answered with a broken line exactly as its arguments say. -/
theorem breaks_executeNamed {args : List Bytes} (name : RedisCommandName) :
    Breaks (executeNamed tables selectedDb args name) ↔ BreaksArgs tables selectedDb args name := by
  cases name with
  | ping | echo | quit =>
    refine iff_of_false ?_ id
    simp only [executeNamed, executePing, executeEcho, executeQuit]
    split
    all_goals first
      | exact not_breaks_ok _
      | exact not_breaks_wrongNumber (by decide)
  | command | readonly => exact iff_of_false (not_breaks_ok _) id
  | hello =>
    refine iff_of_false ?_ id
    simp only [executeNamed, executeHello]
    repeat' split
    all_goals first
      | exact not_breaks_ok _
      | exact not_breaks_validation (by decide)
  | client =>
    rw [executeNamed, BreaksArgs]
    cases args with
    | nil => exact iff_of_false (not_breaks_wrongNumber (by decide)) (by simp)
    | cons sub rest => simp [breaks_client]
  | select =>
    rw [executeNamed, breaks_map]
    exact breaks_executeSelect
  | get =>
    rw [executeNamed, breaks_map, BreaksArgs]
    unfold executeGet
    split
    · rw [breaks_map, breaks_fetchRedisValues, and_iff_right (length_singleton)]
    · rename_i hargs
      refine iff_of_false (not_breaks_wrongNumber (by decide)) fun h => ?_
      obtain ⟨key, rfl⟩ := length_eq_one_iff.mp h.1
      exact hargs key rfl
  | hgetall =>
    rw [executeNamed, breaks_map, BreaksArgs]
    unfold executeHgetall
    split
    · rw [and_iff_right length_singleton]
      exact breaks_readRow
    · rename_i hargs
      refine iff_of_false (not_breaks_wrongNumber (by decide)) fun h => ?_
      obtain ⟨key, rfl⟩ := length_eq_one_iff.mp h.1
      exact hargs key rfl
  | mget | existsCount =>
    rw [executeNamed, breaks_map, BreaksArgs]
    cases args with
    | nil => exact iff_of_false (not_breaks_wrongNumber (by decide)) fun h => h.1 rfl
    | cons key keys =>
      simp only [executeMget, executeExists]
      rw [breaks_map, breaks_fetchRedisValues, and_iff_right (cons_ne_nil key keys)]
  | hget | hexists =>
    rw [executeNamed, breaks_map, BreaksArgs]
    simp only [executeHget, executeHexists]
    split
    · rw [breaks_map, breaks_fetchRedisFields, and_iff_right (by rfl)]
      rfl
    · rename_i hargs
      refine iff_of_false (not_breaks_wrongNumber (by decide)) fun h => ?_
      obtain ⟨key, field, rfl⟩ := length_eq_two.mp h.1
      exact hargs key field rfl
  | hmget =>
    rw [executeNamed, breaks_map, BreaksArgs]
    simp only [executeHmget]
    split
    · rw [breaks_map, breaks_fetchRedisFields, and_iff_right (by simp)]
      rfl
    · rename_i hargs
      refine iff_of_false (not_breaks_wrongNumber (by decide)) fun h => ?_
      rcases args with _ | ⟨key, _ | ⟨field, fields⟩⟩
      · exact absurd h.1 (by simp)
      · exact absurd h.1 (by simp)
      · exact hargs key field fields rfl

/-- The names of the write commands are no names of commands that are served, and have no CRLF. -/
theorem not_breaksLine_of_write {name : Bytes} {args : List Bytes}
    (h : isKnownRedisWriteCommand (toAsciiUppercase name) = true) : ¬ BreaksLine tables selectedDb (name :: args) := by
  have hwrites : ∀ write ∈ redisWriteCommandNames, '\r' ∉ write.toList ∧
      (redisCommandNames.find? fun entry => entry.1.toList = write.toList).isNone := by decide
  obtain ⟨write, hwrite, heq⟩ := any_eq_true.mp h
  obtain ⟨hcr, hnone⟩ := hwrites write hwrite
  have heq : write.toList = toAsciiUppercase name := of_decide_eq_true heq
  rw [BreaksLine, ← heq, Option.isNone_iff_eq_none.mp hnone]
  dsimp only [Option.map_none]
  rw [← hasCrlf_toAsciiUppercase, ← heq]
  exact not_hasCrlf hcr

theorem breaks_executeRedisCommand (args : List Bytes) :
    Breaks (executeRedisCommand tables selectedDb args).1 ↔ BreaksLine tables selectedDb args := by
  unfold executeRedisCommand
  split
  · exact iff_of_false (not_breaks_validation (by decide)) id
  · rename_i name args
    dsimp only
    split
    · rename_i hwrite
      refine iff_of_false (fun h => not_hasCrlf (by decide) (breaks_error.mp h)) (not_breaksLine_of_write ?_)
      exact (Bool.and_eq_true_iff.mp hwrite).2
    · rw [BreaksLine]
      split
      · have hmessage : "unsupported Redis command ".toList ++ toAsciiUppercase name =
            "unsupported Redis command".toList ++ ' ' :: toAsciiUppercase name := by simp
        refine breaks_message.trans ?_
        rw [hmessage, hasCrlf_append (by decide), hasCrlf_toAsciiUppercase]
      · exact breaks_executeNamed _

theorem name_of_command {command : Bytes} (name : String) {known : RedisCommandName}
    (hname : ∀ entry ∈ redisCommandNames, entry.2 = known → entry.1 = name)
    (h : (redisCommandNames.find? fun entry => entry.1.toList = command).map Prod.snd = some known) :
    command = name.toList := by
  obtain ⟨entry, hentry, hknown⟩ := Option.map_eq_some_iff.mp h
  have heq := find?_some hentry
  rw [← of_decide_eq_true heq, hname entry (mem_of_find?_eq_some hentry) hknown]

theorem executeRedisCommand_of_name {name : Bytes} {args : List Bytes} {text : String} (known : RedisCommandName)
    (hname : toAsciiUppercase name = text.toList) (hwrite : isKnownRedisWriteCommand text.toList = false) :
    (redisCommandNames.find? fun entry => entry.1.toList = text.toList).map Prod.snd = some known →
    executeRedisCommand tables selectedDb (name :: args) = (executeNamed tables selectedDb args known,
      if known matches .select then (executeSelect tables args).toOption.getD selectedDb else selectedDb) := by
  intro hknown
  dsimp only [executeRedisCommand]
  rw [hname, hwrite, Bool.and_false, if_neg Bool.false_ne_true, hknown]

theorem executeRedisCommand_selectedDb (args : List Bytes) :
    (executeRedisCommand tables selectedDb args).2 = selectedAfter tables selectedDb args := by
  cases args with
  | nil => rfl
  | cons name args =>
    by_cases hselect : toAsciiUppercase name = "SELECT".toList
    · rw [executeRedisCommand_of_name .select hselect (by decide) rfl]
      rcases args with _ | ⟨text, _ | ⟨more, args⟩⟩
      · rfl
      · rw [selectedAfter, if_pos hselect]
        dsimp only [executeSelect]
        cases parseU32 text with
        | none => rfl
        | some database =>
          cases hbinding : tables.loadRedisDatabaseBinding database <;>
            simp [Except.map, Except.toOption, Except.isOk, Except.toBool, Option.filter, hbinding]
      · rfl
    · have hkeeps : selectedAfter tables selectedDb (name :: args) = selectedDb := by
        rcases args with _ | ⟨text, _ | ⟨more, args⟩⟩
        · rfl
        · exact if_neg hselect
        · rfl
      rw [hkeeps]
      dsimp only [executeRedisCommand]
      split
      · rfl
      · split
        · rfl
        · rename_i known hknown
          cases known with
          | select => exact absurd (name_of_command "SELECT" (by simp [redisCommandNames]) hknown) hselect
          | _ => rfl

/-- Only QUIT closes the connection. -/
theorem closeConnection_executeNamed {args : List Bytes} {name : RedisCommandName} {result : RedisCommandResult}
    (h : executeNamed tables selectedDb args name = .ok result) :
    result.closeConnection = true ↔ name = .quit ∧ args = [] := by
  cases name with
  | ping | echo | quit | client | hello =>
    simp only [executeNamed, executePing, executeEcho, executeQuit, executeClientCommand, executeHello] at h
    repeat' split at h
    all_goals cases h
    all_goals simp [okResult]
  | command =>
    cases h
    unfold executeCommandCommand
    repeat' split
    all_goals simp
  | readonly =>
    cases h
    simp [okResult]
  | _ =>
    obtain ⟨response, -, rfl⟩ := Run.map_eq_ok.mp h
    simp [okResult]

variable (tables selectedDb) in
theorem closes_executeRedisCommand (args : List Bytes) :
    (∃ result, (executeRedisCommand tables selectedDb args).1 = .ok result ∧ result.closeConnection = true) ↔
      args.map toAsciiUppercase = ["QUIT".toList] := by
  constructor
  · rintro ⟨result, hresult, hclose⟩
    unfold executeRedisCommand at hresult
    split at hresult
    · cases hresult
    dsimp only at hresult
    split at hresult
    · cases hresult
    split at hresult
    · cases hresult
    · rename_i hknown
      obtain ⟨rfl, rfl⟩ := (closeConnection_executeNamed hresult).mp hclose
      rw [map_singleton, name_of_command "QUIT" (by simp [redisCommandNames]) hknown]
  · intro h
    obtain ⟨name, rfl, hname⟩ := map_eq_singleton_iff.mp h
    rw [executeRedisCommand_of_name .quit hname (by decide) rfl]
    exact ⟨_, rfl, rfl⟩

end

/-- **The commands that break the line** are those that the connection answers with a broken one. -/
theorem keepsLines_iff (commands : List (RedisTables × List Bytes)) :
    (∀ e, .error e ∈ handleConnection selectedDb commands → ¬ HasCrlf e.respMessage) ↔
      KeepsLines selectedDb commands := by
  induction commands generalizing selectedDb with
  | nil => simp [handleConnection, KeepsLines]
  | cons command commands ih =>
    obtain ⟨tables, args⟩ := command
    rw [handleConnection, KeepsLines, ← breaks_executeRedisCommand, ← executeRedisCommand_selectedDb, Ne,
      ← closes_executeRedisCommand tables selectedDb]
    rcases executeRedisCommand tables selectedDb args with ⟨_ | result, selectedDb'⟩
    · simp [breaks_error, ih]
    · cases hclose : result.closeConnection <;> simp [not_breaks_ok, hclose, ih]

/-- **Framing of the replies.** What the server writes on a connection is read as exactly one reply for each
command, the one that the server gave, exactly if no command up to the first QUIT breaks the line: by a name
or a subcommand of CLIENT that is not known, by a key that has several rows, or by an error of the tables. -/
theorem replies_framed_iff (commands : List (RedisTables × List Bytes)) :
    readReplies (handleConnection selectedDb commands).length
        ((handleConnection selectedDb commands).flatMap responseBytes) =
      some ((handleConnection selectedDb commands).map replyOf) ↔ KeepsLines selectedDb commands := by
  have hvalues : ∀ value, .value value ∈ (handleConnection selectedDb commands).map replyOf → Reads 3 value := by
    intro value hvalue
    obtain ⟨outcome, houtcome, heq⟩ := mem_map.mp hvalue
    cases outcome with
    | error e => cases heq
    | ok result =>
      cases heq
      exact reads_of_mem_handleConnection houtcome
  have hbytes : responseBytes = fun outcome => (replyOf outcome).wire := by
    funext outcome
    cases outcome <;> rfl
  have hframed := readReplies_wire_iff hvalues
  rw [length_map, flatMap_map] at hframed
  rw [hbytes, hframed, ← keepsLines_iff]
  refine ⟨fun h e he => h _ (mem_map_of_mem he), fun h message hmessage => ?_⟩
  obtain ⟨outcome, houtcome, heq⟩ := mem_map.mp hmessage
  cases outcome with
  | ok result => cases heq
  | error e =>
    cases heq
    exact h e houtcome

/-- A node without tables. -/
def noTables : RedisTables where
  loadRedisDatabaseBinding _ := .error (.validation "Redis database 0 is not configured")
  lookupRows _ _ _ := .ok []

/-- **A forged reply.** The name of one command, sent as a bulk string, ends the error line and goes on with
a reply of its own. -/
theorem reply_forged : (handleConnection 0 [(noTables, ["X\r\n+OK".toList])]).length = 1 ∧
    readReplies 2 ((handleConnection 0 [(noTables, ["X\r\n+OK".toList])]).flatMap responseBytes) =
      some [.error "ERR unsupported Redis command X".toList, .value (.simpleString "OK".toList)] ∧
    readReplies 1 ((handleConnection 0 [(noTables, ["X\r\n+OK".toList])]).flatMap responseBytes) = none := by
  exact ⟨rfl, rfl, rfl⟩

end PowdrrEngine
