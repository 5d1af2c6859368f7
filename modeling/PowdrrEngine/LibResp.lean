import PowdrrEngine.LibText

/-! RESP as a client reads it. A line goes up to the first CRLF, so a line that was written with a CRLF inside
is read as a shorter one, and what follows is read as the next reply. -/

namespace Resp

open List

variable {k : Nat}

/-- A byte is written as the character with its number. -/
abbrev Bytes := List Char

def crlf : Bytes := ['\r', '\n']

inductive RespValue where
  | simpleString (text : Bytes)
  | bulkString (bytes : Bytes)
  | nullBulkString
  | integer (value : Nat)
  | array (items : List RespValue)

/-- What a client reads: a value, or an error line. -/
inductive Reply where
  | value (value : RespValue)
  | error (message : Bytes)

/-! ### Writing -/

mutual

def encodeRespValue : RespValue → Bytes
  | .simpleString text => '+' :: text ++ crlf
  | .bulkString bytes => '$' :: (toString bytes.length).toList ++ crlf ++ bytes ++ crlf
  | .nullBulkString => "$-1\r\n".toList
  | .integer value => ':' :: (toString value).toList ++ crlf
  | .array items => '*' :: (toString items.length).toList ++ crlf ++ encodeItems items

def encodeItems : List RespValue → Bytes
  | [] => []
  | item :: items => encodeRespValue item ++ encodeItems items

end

/-! ### Reading -/

/-- The first line and what follows it. -/
def splitLine : Bytes → Option (Bytes × Bytes)
  | [] => none
  | byte :: rest =>
    if crlf <+: byte :: rest then some ([], rest.tail)
    else (splitLine rest).map fun (line, rest) => (byte :: line, rest)

def readNat (line : Bytes) : Option Nat :=
  if line ≠ [] ∧ line.all Char.isDigit then some (Nat.ofDigitChars 10 line 0) else none

def readBulk (length : Nat) (input : Bytes) : Option (RespValue × Bytes) :=
  if (input.drop length).take 2 = crlf then some (.bulkString (input.take length), input.drop (length + 2))
  else none

def readItems (read : Bytes → Option (RespValue × Bytes)) : Nat → Bytes → Option (List RespValue × Bytes)
  | 0, input => some ([], input)
  | n + 1, input => do
    let (item, rest) ← read input
    let (items, rest) ← readItems read n rest
    some (item :: items, rest)

/-- A value that is nested no deeper than `depth`. -/
def readValue : Nat → Bytes → Option (RespValue × Bytes)
  | 0, _ => none
  | _, [] => none
  | depth + 1, kind :: input => do
    let (line, rest) ← splitLine input
    match kind with
    | '+' => some (.simpleString line, rest)
    | ':' => (readNat line).map fun value => (.integer value, rest)
    | '$' => if line = ['-', '1'] then some (.nullBulkString, rest) else (readNat line).bind (readBulk · rest)
    | '*' => do
      let (items, rest) ← readItems (readValue depth) (← readNat line) rest
      some (.array items, rest)
    | _ => none

def readReply : Bytes → Option (Reply × Bytes)
  | '-' :: input => (splitLine input).map fun (line, rest) => (.error line, rest)
  | input => (readValue input.length input).map fun (value, rest) => (.value value, rest)

/-- Exactly `n` replies, with nothing left behind them. -/
def readReplies : Nat → Bytes → Option (List Reply)
  | 0, input => if input = [] then some [] else none
  | n + 1, input => do
    let (reply, rest) ← readReply input
    (readReplies n rest).map (reply :: ·)

/-! ### Reading what was written -/

/-- **A line** is read as it was written exactly if it has no CRLF inside. -/
theorem splitLine_append_eq (line rest : Bytes) : ∃ first left, splitLine (line ++ crlf ++ rest) = some (first, left) ∧
      (¬ crlf <:+: line → first = line ∧ left = rest) ∧ (crlf <:+: line → first ≠ line) := by
  induction line with
  | nil => exact ⟨[], rest, by simp [splitLine, crlf], fun _ => ⟨rfl, rfl⟩, fun h => by simp [crlf] at h⟩
  | cons byte line ih =>
    obtain ⟨first, left, hsplit, hclean, hsplits⟩ := ih
    by_cases hstart : crlf <+: byte :: line
    · refine ⟨[], line.tail ++ crlf ++ rest, ?_, fun h => absurd hstart.isInfix h, fun _ => by simp⟩
      obtain ⟨more, hmore⟩ := hstart
      have hcons : '\r' :: '\n' :: more = byte :: line := hmore
      injection hcons with hbyte hline
      subst hbyte hline
      simp [splitLine, crlf]
    have hnot : ¬ crlf <+: byte :: (line ++ crlf ++ rest) := by
      intro h
      cases line with
      | nil => simp [crlf] at h
      | cons next line =>
        simp only [crlf, cons_append, cons_prefix_cons] at h hstart
        exact hstart ⟨h.1, h.2.1, nil_prefix⟩
    have hinside : crlf <:+: byte :: line ↔ crlf <:+: line := by
      rw [infix_cons_iff]
      exact or_iff_right hstart
    refine ⟨byte :: first, left, ?_, fun h => ?_, fun h heq => ?_⟩
    · rw [cons_append, cons_append, splitLine, if_neg hnot, hsplit]
      rfl
    · obtain ⟨rfl, rfl⟩ := hclean (mt hinside.mpr h)
      exact ⟨rfl, rfl⟩
    · injection heq with _ heq
      exact hsplits (hinside.mp h) heq

theorem splitLine_of_clean {line : Bytes} (h : ¬ crlf <:+: line) (rest : Bytes) :
    splitLine (line ++ crlf ++ rest) = some (line, rest) := by
  obtain ⟨first, left, hsplit, hclean, -⟩ := splitLine_append_eq line rest
  obtain ⟨rfl, rfl⟩ := hclean h
  exact hsplit

theorem isDigit_toString {n : Nat} {c : Char} (h : c ∈ (toString n).toList) : c.isDigit = true := by
  rw [show toString n = n.repr from rfl, Nat.toList_repr] at h
  exact Nat.isDigit_of_mem_toDigits (by decide) (by decide) h

theorem notMem_toString {n : Nat} {c : Char} (h : c.isDigit = false) : c ∉ (toString n).toList := by
  intro hmem
  rw [isDigit_toString hmem] at h
  cases h

theorem not_crlf_infix_toString (n : Nat) : ¬ crlf <:+: (toString n).toList :=
  fun h => notMem_toString (by decide : '\r'.isDigit = false) (h.subset mem_cons_self)

theorem readNat_toString (n : Nat) : readNat (toString n).toList = some n := by
  have hdigits : (toString n).toList = Nat.toDigits 10 n := Nat.toList_repr
  have hall : (toString n).toList.all Char.isDigit = true := all_eq_true.mpr fun _ h => isDigit_toString h
  have hne : (toString n).toList ≠ [] := by
    rw [hdigits]
    exact Nat.toDigits_ne_nil
  rw [readNat, if_pos ⟨hne, hall⟩, hdigits, Nat.ofDigitChars_ten_toDigits]

/-- A value is read back, with what follows it left, by a reader that allows a nesting of `k`. -/
def Reads (k : Nat) (value : RespValue) : Prop :=
  ∀ depth, k ≤ depth → ∀ rest, readValue depth (encodeRespValue value ++ rest) = some (value, rest)

theorem Reads.mono {v : RespValue} (h : Reads 1 v) : Reads (k + 1) v :=
  fun depth hdepth => h depth (Nat.le_trans (Nat.le_add_left 1 k) hdepth)

theorem Reads.simpleString {text : Bytes} (h : ¬ crlf <:+: text) : Reads 1 (.simpleString text) := by
  rintro (_ | depth) hdepth rest
  · cases hdepth
  · rw [encodeRespValue, cons_append, cons_append, readValue, splitLine_of_clean h]
    rfl

theorem Reads.integer (value : Nat) : Reads 1 (.integer value) := by
  rintro (_ | depth) hdepth rest
  · cases hdepth
  rw [encodeRespValue, cons_append, cons_append, readValue, splitLine_of_clean (not_crlf_infix_toString value)]
  change (readNat _).map _ = _
  rw [readNat_toString]
  rfl

theorem Reads.nullBulkString : Reads 1 .nullBulkString := by
  rintro (_ | depth) hdepth rest
  · cases hdepth
  · rfl

theorem Reads.bulkString (bytes : Bytes) : Reads 1 (.bulkString bytes) := by
  rintro (_ | depth) hdepth rest
  · cases hdepth
  have hne : (toString bytes.length).toList ≠ ['-', '1'] := fun heq =>
    notMem_toString (n := bytes.length) (by decide : '-'.isDigit = false) (heq ▸ mem_cons_self)
  have hline := splitLine_of_clean (not_crlf_infix_toString bytes.length) (bytes ++ crlf ++ rest)
  rw [← append_assoc, ← append_assoc] at hline
  rw [encodeRespValue, cons_append, cons_append, cons_append, cons_append, readValue, hline]
  change (if _ then _ else (readNat _).bind _) = _
  rw [if_neg hne, readNat_toString, Option.bind_some, readBulk, append_assoc,
    drop_left, if_pos (by simp [crlf]), take_left, ← drop_drop, drop_left]
  rfl

variable {items : List RespValue}

theorem readItems_encodeItems {depth : Nat} (hdepth : k ≤ depth) (h : ∀ item ∈ items, Reads k item) (rest : Bytes) :
    readItems (readValue depth) items.length (encodeItems items ++ rest) = some (items, rest) := by
  induction items with
  | nil => rfl
  | cons item items ih =>
    obtain ⟨hitem, hitems⟩ := forall_mem_cons.mp h
    rw [encodeItems, append_assoc, length_cons, readItems, hitem depth hdepth]
    change (readItems _ _ _).bind _ = _
    rw [ih hitems]
    rfl

theorem Reads.array (h : ∀ item ∈ items, Reads k item) : Reads (k + 1) (.array items) := by
  rintro (_ | depth) hdepth rest
  · cases hdepth
  have hline := splitLine_of_clean (not_crlf_infix_toString items.length) (encodeItems items ++ rest)
  rw [← append_assoc] at hline
  rw [encodeRespValue, cons_append, cons_append, cons_append, readValue, hline]
  change (readNat _).bind (fun n => (readItems _ n _).bind _) = _
  rw [readNat_toString, Option.bind_some, readItems_encodeItems (Nat.le_of_succ_le_succ hdepth) h]
  rfl

theorem three_le_length_encode (value : RespValue) : 3 ≤ (encodeRespValue value).length := by
  cases value <;> simp [encodeRespValue, crlf] <;> omega

/-- What one reply is written as. -/
def Reply.wire : Reply → Bytes
  | .value v => encodeRespValue v
  | .error message => '-' :: message ++ crlf

/-- A reply that is read back from the bytes it was written as. -/
def Reply.Sound : Reply → Prop
  | .value v => Reads 3 v
  | .error message => ¬ crlf <:+: message

theorem readReply_wire {reply : Reply} (h : reply.Sound) (rest : Bytes) :
    readReply (reply.wire ++ rest) = some (reply, rest) := by
  cases reply with
  | error message =>
    rw [Reply.wire, cons_append, cons_append, readReply, splitLine_of_clean h]
    rfl
  | value value =>
    have hlength : 3 ≤ (encodeRespValue value ++ rest).length := by
      rw [length_append]
      exact Nat.le_trans (three_le_length_encode value) (Nat.le_add_right _ _)
    have hread := h _ hlength rest
    have hreply : readReply (encodeRespValue value ++ rest) =
        (readValue (encodeRespValue value ++ rest).length (encodeRespValue value ++ rest)).map
          fun (value, rest) => (Reply.value value, rest) := by
      cases value <;> rfl
    rw [Reply.wire, hreply, hread]
    rfl

/-- **Framing.** Replies of which the values are read back are read one by one exactly if no error line has
a CRLF inside. -/
theorem readReplies_wire_iff {replies : List Reply} (h : ∀ value, .value value ∈ replies → Reads 3 value) :
    readReplies replies.length (replies.flatMap Reply.wire) = some replies ↔
      ∀ message, .error message ∈ replies → ¬ crlf <:+: message := by
  induction replies with
  | nil => simp [readReplies]
  | cons reply replies ih =>
    have hrest := ih fun value hvalue => h value (mem_cons_of_mem _ hvalue)
    rw [flatMap_cons, length_cons, readReplies]
    by_cases hsound : reply.Sound
    · rw [readReply_wire hsound]
      change (readReplies _ _).map _ = some _ ↔ _
      have hmap : (readReplies replies.length (replies.flatMap Reply.wire)).map (reply :: ·) =
          some (reply :: replies) ↔ readReplies replies.length (replies.flatMap Reply.wire) = some replies := by
        simp
      rw [hmap, hrest]
      refine ⟨fun hall message hmem => ?_, fun hall message hmem => hall message (mem_cons_of_mem _ hmem)⟩
      rcases mem_cons.mp hmem with rfl | hmem
      · exact hsound
      · exact hall message hmem
    · -- the line is cut at the CRLF, so the first reply that is read is another one
      cases reply with
      | value value => exact absurd (h value mem_cons_self) hsound
      | error message =>
        refine iff_of_false (fun heq => ?_) fun hall => hsound (hall message mem_cons_self)
        obtain ⟨first, left, hsplit, -, hne⟩ := splitLine_append_eq message (replies.flatMap Reply.wire)
        rw [Reply.wire, cons_append, cons_append, readReply, hsplit] at heq
        obtain ⟨read, -, hcons⟩ := Option.map_eq_some_iff.mp heq
        injection hcons with hfirst
        injection hfirst with hfirst
        exact hne (not_not.mp hsound) hfirst

end Resp
