import PowdrrEngine.LibRun
import Mathlib

/-! The commands of the MongoDB wire protocol. An `OP_MSG` body is walked section by section, by the lengths
that the client sends. -/

namespace PowdrrEngine

open List

/-- A parser fails with a message; `none` is a panic. -/
abbrev WireParser := ExceptT String Option

/-- A parser that never panics, with the results it has. -/
def Gives {α : Type} (x : WireParser α) (results : α → Prop) : Prop :=
  x.run ≠ none ∧ ∀ a, x.run = some (.ok a) ↔ results a

section

variable {α β : Type} {x : WireParser α} {P Q : α → Prop} {message : String} {c : Prop} [Decidable c]

theorem Gives.congr (h : Gives x P) (hiff : ∀ a, P a ↔ Q a) : Gives x Q := ⟨h.1, fun a => (h.2 a).trans (hiff a)⟩

theorem gives_pure (a : α) : Gives (pure a) (a = ·) := ⟨nofun, fun b => by simp [ExceptT.run_pure]⟩

theorem gives_throw : Gives (throw message : WireParser α) fun _ => False := ⟨nofun, fun _ => iff_of_false nofun id⟩

theorem gives_unless (h : ¬ c → Gives x P) : Gives (if c then throw message else x) fun a => ¬ c ∧ P a := by
  split
  · exact gives_throw.congr fun _ => iff_of_false id fun h => h.1 ‹_›
  · exact (h ‹_›).congr fun _ => (and_iff_right ‹_›).symm

theorem Gives.bind {f : α → WireParser β} {R : α → β → Prop} (hx : Gives x P) (hf : ∀ a, P a → Gives (f a) (R a)) :
    Gives (x >>= f) fun b => ∃ a, P a ∧ R a b := by
  obtain ⟨hnone, hx⟩ := hx
  rcases x with _ | ⟨_ | a⟩
  · exact absurd rfl hnone
  · refine ⟨nofun, fun b => iff_of_false nofun ?_⟩
    rintro ⟨a, ha, -⟩
    cases (hx a).mpr ha
  · obtain ⟨hrun, hiff⟩ := hf a ((hx a).mp rfl)
    refine ⟨hrun, fun b => (hiff b).trans ⟨fun h => ⟨a, (hx a).mp rfl, h⟩, ?_⟩⟩
    rintro ⟨a', ha', h⟩
    cases (hx a').mpr ha'
    exact h

end

/-- The first bytes, as a slice: it panics where there are not so many. -/
def sliceTo (bytes : List UInt8) (stop : Nat) : WireParser (List UInt8) :=
  .mk (if stop ≤ bytes.length then some (.ok (bytes.take stop)) else none)

def readU32 (bytes : List UInt8) : WireParser Nat :=
  match bytes with
  | [a, b, c, d] => pure (a.toNat + 2 ^ 8 * b.toNat + 2 ^ 16 * c.toNat + 2 ^ 24 * d.toNat)
  | _ => throw "Mongo wire integer was truncated"

def readI32 (bytes : List UInt8) : WireParser Int := do
  return Int.bmod (← readU32 bytes) (2 ^ 32)

def readLength (bytes : List UInt8) (fieldName : String) : WireParser Nat := do
  let value ← readI32 bytes
  if value < 0 then throw (fieldName ++ " was negative") else return value.toNat

/-- A length in front of the bytes it counts, checked as `parse_document` and the branch of the document
sequences do. -/
def checkedLength (least : Nat) (truncated fieldName invalid : String) (rest : List UInt8) : WireParser Nat :=
  if rest.length < 4 then throw truncated
  else do
    let length ← readLength (← sliceTo rest 4) fieldName
    if length < least ∨ rest.length < length then throw invalid else return length

section

variable {δ : Type} (decode : List UInt8 → Except String δ)

/-- The document at the front, with its length. -/
def parseDocument (rest : List UInt8) : WireParser (δ × Nat) := do
  let length ← checkedLength 5 "Mongo BSON document length prefix was truncated" "Mongo BSON document length"
    "Mongo BSON document length was invalid" rest
  match decode (← sliceTo rest length) with
  | .ok document => return (document, length)
  | .error error => throw ("Failed to decode Mongo BSON document: " ++ error)

/-- The section loop, over what is left of the sections. -/
def parseSections (sections : List UInt8) (command : Option δ) : WireParser δ :=
  match sections with
  | [] => command.elim (throw "Mongo OP_MSG did not include a type-0 command body") pure
  | payloadType :: rest =>
    if payloadType = 0 then do
      let (document, length) ← parseDocument decode rest
      if command.isSome then throw "Mongo OP_MSG contained more than one type-0 section"
      else parseSections (rest.drop length) (some document)
    else if payloadType = 1 then do
      let length ← checkedLength 4 "Mongo OP_MSG section-1 header was truncated" "Mongo OP_MSG section-1 size"
        "Mongo OP_MSG section-1 size was invalid" rest
      parseSections (rest.drop length) command
    else throw ("Mongo OP_MSG payload type " ++ toString payloadType ++ " is unsupported")
termination_by sections.length
decreasing_by all_goals rw [length_drop, length_cons]; omega

def parseOpMsgCommand (body : List UInt8) : WireParser δ :=
  if body.length < 5 then throw "Mongo OP_MSG body was too short"
  else do
    let flagBits ← readU32 (← sliceTo body 4)
    let sections := body.drop 4
    if flagBits % 2 = 0 then parseSections decode sections none
    else if sections.length < 4 then throw "Mongo OP_MSG declared a checksum without enough bytes"
    else parseSections decode (← sliceTo sections (sections.length - 4)) none

/-- The number with the given bytes, the lowest first. -/
def littleEndian : List UInt8 → Nat
  | [] => 0
  | byte :: bytes => byte.toNat + 256 * littleEndian bytes

/-- Bytes that begin with their own number, a signed number of 32 bits. -/
def Framed (least : Nat) (bytes : List UInt8) : Prop :=
  least ≤ bytes.length ∧ bytes.length < 2 ^ 31 ∧ littleEndian (bytes.take 4) = bytes.length

/-- The sections of a message, with the documents of the body sections. All that is asked of a document
sequence is that it is as long as it says: its name and its documents are not looked at. -/
inductive Sections : List UInt8 → List δ → Prop
  | nil : Sections [] []
  | body {bytes rest : List UInt8} {document : δ} {documents : List δ} (hframed : Framed 5 bytes)
    (hdecode : decode bytes = .ok document) (hrest : Sections rest documents) :
    Sections (0 :: (bytes ++ rest)) (document :: documents)
  | sequence {bytes rest : List UInt8} {documents : List δ} (hframed : Framed 4 bytes)
    (hrest : Sections rest documents) : Sections (1 :: (bytes ++ rest)) documents

end

variable {least : Nat} {truncated fieldName invalid : String} {rest bytes : List UInt8} {length : Nat}

theorem gives_sliceTo (h : length ≤ rest.length) : Gives (sliceTo rest length) (rest.take length = ·) := by
  simp [Gives, sliceTo, h]

theorem littleEndian_lt (bytes : List UInt8) : littleEndian bytes < 256 ^ bytes.length := by
  induction bytes with
  | nil => exact Nat.one_pos
  | cons byte bytes ih =>
    have hbyte : byte.toNat < 256 := byte.toNat_lt
    rw [littleEndian, length_cons, pow_succ]
    omega

theorem gives_readU32 (bytes : List UInt8) :
    Gives (readU32 bytes) fun n => bytes.length = 4 ∧ littleEndian bytes = n := by
  unfold readU32
  split
  · refine (gives_pure _).congr fun n => ?_
    simp only [littleEndian, length_cons, length_nil, true_and]
    constructor <;> intro h <;> omega
  · rename_i hfour
    refine gives_throw.congr fun n => iff_of_false id ?_
    rintro ⟨hlength, -⟩
    obtain ⟨a, b, c, d, rfl⟩ := length_eq_four.mp hlength
    exact hfour a b c d rfl

theorem gives_readI32 (bytes : List UInt8) :
    Gives (readI32 bytes) fun n => bytes.length = 4 ∧ Int.bmod (littleEndian bytes) (2 ^ 32) = n := by
  refine ((gives_readU32 bytes).bind fun value _ => gives_pure _).congr fun n => ⟨?_, ?_⟩
  · rintro ⟨_, ⟨hlength, rfl⟩, rfl⟩
    exact ⟨hlength, rfl⟩
  · rintro ⟨hlength, rfl⟩
    exact ⟨_, ⟨hlength, rfl⟩, rfl⟩

/-- As a signed number, four bytes are negative or the number they stand for. -/
theorem bmod_littleEndian (hlength : bytes.length = 4) (n : Nat) :
    (¬ Int.bmod (littleEndian bytes) (2 ^ 32) < 0 ∧ (Int.bmod (littleEndian bytes) (2 ^ 32)).toNat = n) ↔
      n < 2 ^ 31 ∧ littleEndian bytes = n := by
  have hlt : littleEndian bytes < 2 ^ 32 := by
    have := littleEndian_lt bytes
    rwa [hlength] at this
  simp only [Int.bmod_def]
  omega

theorem gives_checkedLength (hleast : 4 ≤ least) : Gives (checkedLength least truncated fieldName invalid rest)
    fun length => length ≤ rest.length ∧ Framed least (rest.take length) := by
  refine (gives_unless fun hlong => (gives_sliceTo (Nat.not_lt.mp hlong)).bind fun bytes hbytes =>
    ((gives_readI32 bytes).bind fun value _ => gives_unless fun _ => gives_pure _).bind fun length _ =>
      gives_unless fun _ => gives_pure _).congr fun length => ?_
  unfold Framed
  constructor
  · rintro ⟨hlong, _, rfl, _, ⟨_, ⟨hfour, rfl⟩, hsign, rfl⟩, hfits, rfl⟩
    obtain ⟨hsmall, hvalue⟩ := (bmod_littleEndian hfour _).mp ⟨hsign, rfl⟩
    rw [length_take_of_le (by omega), take_take, Nat.min_eq_left (by omega)]
    exact ⟨by omega, by omega, hsmall, hvalue⟩
  · rintro ⟨hle, hlength, hsmall, hvalue⟩
    rw [length_take_of_le hle] at hlength hsmall hvalue
    rw [take_take, Nat.min_eq_left (by omega)] at hvalue
    have hfour : (rest.take 4).length = 4 := length_take_of_le (by omega)
    obtain ⟨hsign, hnat⟩ := (bmod_littleEndian hfour length).mpr ⟨hsmall, hvalue⟩
    exact ⟨by omega, _, rfl, length, ⟨_, ⟨hfour, rfl⟩, hsign, hnat⟩, by omega, rfl⟩

section

variable {δ : Type} {decode : List UInt8 → Except String δ}

theorem gives_parseDocument : Gives (parseDocument decode rest) fun found =>
    (found.2 ≤ rest.length ∧ Framed 5 (rest.take found.2)) ∧ decode (rest.take found.2) = .ok found.1 := by
  refine ((gives_checkedLength (by decide)).bind fun length hlength => (gives_sliceTo hlength.1).bind
    fun bytes _ => (?_ : Gives _ fun found : δ × Nat => decode bytes = .ok found.1 ∧ found.2 = length)).congr ?_
  · split
    · exact (gives_pure _).congr fun found => by simp [*, Prod.ext_iff, eq_comm]
    · exact gives_throw.congr fun found => by simp [*]
  · rintro ⟨document, length⟩
    constructor
    · rintro ⟨_, hlength, _, rfl, hdecode, rfl⟩
      exact ⟨hlength, hdecode⟩
    · rintro ⟨hlength, hdecode⟩
      exact ⟨_, hlength, _, rfl, hdecode, rfl⟩

/-- **The section loop** gives the one body document of the sections. -/
theorem gives_parseSections (sections : List UInt8) (command : Option δ) : Gives (parseSections decode sections command)
    fun document => ∃ documents, Sections decode sections documents ∧ command.toList ++ documents = [document] := by
  fun_induction parseSections decode sections command with
  | case1 command =>
    cases command with
    | none =>
      refine gives_throw.congr fun document => iff_of_false id ?_
      rintro ⟨_, ⟨⟩, h⟩
      cases h
    | some found =>
      refine (gives_pure found).congr fun document => ⟨fun h => ⟨[], .nil, congrArg ([·]) h⟩, ?_⟩
      rintro ⟨_, ⟨⟩, h⟩
      cases h
      rfl
  | case2 command rest ih =>
    refine (gives_parseDocument.bind fun found _ => gives_unless fun _ => ih found.1 found.2).congr fun document => ?_
    constructor
    · rintro ⟨⟨first, length⟩, ⟨⟨hle, hframed⟩, hdecode⟩, hnone, documents, hrest, heq⟩
      obtain rfl := Option.not_isSome_iff_eq_none.mp hnone
      exact ⟨_, take_append_drop length rest ▸ .body hframed hdecode hrest, heq⟩
    · rintro ⟨_, hsections, heq⟩
      obtain _ | @⟨bytes, rest, first, documents, hframed, hdecode, hrest⟩ := hsections
      cases command with
      | some found => cases heq
      | none =>
        refine ⟨(first, bytes.length), ?_, nofun, documents, ?_, heq⟩
        · rw [take_left]
          exact ⟨⟨by simp, hframed⟩, hdecode⟩
        · rwa [drop_left]
  | case3 command rest hbody ih =>
    refine ((gives_checkedLength (by decide)).bind fun length _ => ih length).congr fun document => ?_
    constructor
    · rintro ⟨length, ⟨hle, hframed⟩, documents, hrest, heq⟩
      exact ⟨documents, take_append_drop length rest ▸ .sequence hframed hrest, heq⟩
    · rintro ⟨documents, hsections, heq⟩
      obtain _ | _ | @⟨bytes, rest, _, hframed, hrest⟩ := hsections
      refine ⟨bytes.length, ⟨by simp, by rwa [take_left]⟩, documents, by rwa [drop_left], heq⟩
  | case4 command payloadType rest hbody hsequence =>
    refine gives_throw.congr fun document => iff_of_false id ?_
    rintro ⟨_, ⟨⟩ | ⟨⟩ | ⟨⟩, h⟩
    · exact hbody rfl
    · exact hsequence rfl

theorem gives_checksum (behind : List UInt8) (flagBits : Nat) :
    Gives (if flagBits % 2 = 0 then parseSections decode behind none
      else if behind.length < 4 then throw "Mongo OP_MSG declared a checksum without enough bytes"
      else do parseSections decode (← sliceTo behind (behind.length - 4)) none)
      fun document => ∃ sections checksum, behind = sections ++ checksum ∧
        checksum.length = (if flagBits % 2 = 0 then 0 else 4) ∧ Sections decode sections [document] := by
  by_cases heven : flagBits % 2 = 0
  · simp only [heven, if_true]
    refine (gives_parseSections behind none).congr fun document => ⟨?_, ?_⟩
    · rintro ⟨_, hsections, rfl⟩
      exact ⟨behind, [], (append_nil _).symm, rfl, hsections⟩
    · rintro ⟨sections, checksum, rfl, hlength, hsections⟩
      rw [length_eq_zero_iff.mp hlength, append_nil]
      exact ⟨_, hsections, rfl⟩
  · simp only [heven, if_false]
    refine (gives_unless fun _ => (gives_sliceTo (Nat.sub_le _ _)).bind
      fun bytes _ => gives_parseSections bytes none).congr fun document => ⟨?_, ?_⟩
    · rintro ⟨hlong, _, rfl, _, hsections, rfl⟩
      exact ⟨_, _, (take_append_drop _ _).symm, by rw [length_drop]; omega, hsections⟩
    · rintro ⟨sections, checksum, rfl, hlength, hsections⟩
      refine ⟨by rw [length_append]; omega, sections, ?_, _, hsections, rfl⟩
      rw [length_append, hlength, Nat.add_sub_cancel, take_left]

end

/-- **Commands of `OP_MSG`.** Parsing never panics. It gives a document exactly where the body is flag bits
and sections of which one is that document, with four more bytes where the flags announce a checksum. -/
theorem parseOpMsgCommand_iff {δ : Type} (decode : List UInt8 → Except String δ) (body : List UInt8) :
    Gives (parseOpMsgCommand decode body) fun document => ∃ flags sections checksum,
      body = flags ++ (sections ++ checksum) ∧ flags.length = 4 ∧
        checksum.length = (if littleEndian flags % 2 = 0 then 0 else 4) ∧ Sections decode sections [document] := by
  refine (gives_unless fun hlong => (gives_sliceTo (by omega)).bind fun flags _ => (gives_readU32 flags).bind
    fun flagBits _ => gives_checksum (body.drop 4) flagBits).congr fun document => ⟨?_, ?_⟩
  · rintro ⟨hlong, flags, rfl, _, ⟨hfour, rfl⟩, sections, checksum, hbehind, hrest⟩
    exact ⟨_, sections, checksum, by rw [← hbehind, take_append_drop], hfour, hrest⟩
  · rintro ⟨flags, sections, checksum, rfl, hfour, hlength, hsections⟩
    have hone : sections ≠ [] := by
      rintro rfl
      cases hsections
    refine ⟨?_, flags, ?_, _, ⟨hfour, rfl⟩, sections, checksum, ?_, hlength, hsections⟩
    · have := length_pos_iff.mpr hone
      simp only [length_append]
      omega
    · rw [← hfour, take_left]
    · rw [← hfour, drop_left]

end PowdrrEngine
