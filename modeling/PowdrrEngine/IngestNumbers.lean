import PowdrrEngine.IngestRows

/-! The sequence numbers of a table. A commit draws one number for each of its changes and hands them out the
greatest first, to its inserts and then to its updates. So the numbers of later commits are greater, while
within a commit they fall in the order of the inserts and in that of the updates. A lookup shows the record
with the greatest number. -/

namespace PowdrrEngine

open List SpeedboatCommitBuilder

/-- An operation on a builder. -/
inductive BufferedOp where
  | insert (r : RecordInput)
  | update (r : RecordInput)
  | delete (d : RecordDelete)

namespace BufferedOp

def buffer (b : SpeedboatCommitBuilder) : BufferedOp → SpeedboatCommitBuilder
  | .insert r => b.insert r
  | .update r => b.update r
  | .delete d => b.delete d

/-- The record that an operation stores. -/
def record : BufferedOp → Option RecordInput
  | .insert r | .update r => some r
  | .delete _ => none

/-- The builder of a commit. -/
def builder (ops : List BufferedOp) : SpeedboatCommitBuilder := ops.foldl buffer {}

def changes (ops : List BufferedOp) : Nat :=
  (builder ops).insertRecords.length + (builder ops).updateRecords.length + (builder ops).deleteRecords.length

/-- The numbers that `build_buffers` draws for a commit, and the last number after it. -/
def seqNos (lastSeqNo : Nat) (ops : List BufferedOp) : List Nat × Nat := reportTableChanges lastSeqNo (changes ops)

def lastSeqNo (commits : List (List BufferedOp)) : Nat := commits.foldl (fun last ops => (seqNos last ops).2) 0

/-- Where `build_buffers` puts the record of an operation: the inserts come first. -/
def place (front : List BufferedOp) (op : BufferedOp) (back : List BufferedOp) : Option Nat :=
  match op with
  | .insert _ => some (builder front).insertRecords.length
  | .update _ => some ((builder (front ++ op :: back)).insertRecords.length + (builder front).updateRecords.length)
  | .delete _ => none

def number (lastSeqNo : Nat) (front : List BufferedOp) (op : BufferedOp) (back : List BufferedOp) : Option Nat :=
  (place front op back).bind ((seqNos lastSeqNo (front ++ op :: back)).1[·]?)

theorem foldl_buffer (b : SpeedboatCommitBuilder) (ops : List BufferedOp) :
    ops.foldl buffer b = b.extend (builder ops) := by
  induction ops using List.reverseRecOn with
  | nil => exact (extend_nil b).symm
  | append_singleton ops op ih =>
    rw [builder, foldl_concat, foldl_concat, ih]
    cases op <;> simp [buffer, extend, builder, SpeedboatCommitBuilder.insert, SpeedboatCommitBuilder.update,
      SpeedboatCommitBuilder.delete]

theorem builder_append (front back : List BufferedOp) :
    builder (front ++ back) = (builder front).extend (builder back) := by
  rw [builder, foldl_append, foldl_buffer]
  rfl

theorem builder_cons (op : BufferedOp) (back : List BufferedOp) :
    builder (op :: back) = (buffer {} op).extend (builder back) := foldl_buffer _ back

variable {front back : List BufferedOp} {op : BufferedOp} {last n : Nat}

theorem number_eq (h : number last front op back = some n) : ∃ place, BufferedOp.place front op back = some place ∧
    place < changes (front ++ op :: back) ∧ n + place = last + changes (front ++ op :: back) := by
  obtain ⟨place, hplace, hn⟩ := Option.bind_eq_some_iff.mp h
  obtain ⟨hlt, hn⟩ := List.getElem?_eq_some_iff.mp hn
  have hlt' : place < changes (front ++ op :: back) := by simpa [seqNos, reportTableChanges] using hlt
  refine ⟨place, hplace, hlt', ?_⟩
  have hvalue : n = last + changes (front ++ op :: back) - place := by simpa [seqNos, reportTableChanges] using hn.symm
  omega

theorem changes_eq_changes (ops : List BufferedOp) : changes ops = (builder ops).changes := rfl

/-- The record of an operation stands at its place, and gets its number there. -/
theorem mem_numbered {r : RecordInput} (h : number last front op back = some n) (hr : op.record = some r) :
    (r, n) ∈ (builder (front ++ op :: back)).numbered last := by
  obtain ⟨place, hplace, hn⟩ := Option.bind_eq_some_iff.mp h
  have hrecord : (builder (front ++ op :: back)).records[place]? = some r := by
    cases op with
    | insert s =>
      cases hr
      cases hplace
      simp [builder_append, builder_cons, buffer, records, extend, SpeedboatCommitBuilder.insert]
    | update s =>
      cases hr
      cases hplace
      rw [records, getElem?_append_right (Nat.le_add_right _ _), Nat.add_sub_cancel_left]
      simp [builder_append, builder_cons, buffer, extend, SpeedboatCommitBuilder.update]
    | delete d => cases hr
  refine mem_of_getElem? (i := place) (getElem?_zip_eq_some.mpr ⟨hrecord, ?_⟩)
  rwa [seqNos, changes_eq_changes] at hn

theorem le_lastSeqNo (between : List (List BufferedOp)) (last : Nat) :
    last ≤ between.foldl (fun last ops => (seqNos last ops).2) last := by
  induction between generalizing last with
  | nil => exact Nat.le_refl last
  | cons ops between ih => exact (Nat.le_add_right last _).trans (ih _)

end BufferedOp

open BufferedOp

/-- **Sequence numbers.** An operation has a smaller number than those of all later commits. A later one of its
own commit has another number, a greater one exactly if it is an insert and the operation an update. Once the
commit is stored, the record of the operation has this number, and of the live records of an id the one with
the greatest number is shown. -/
theorem number_lt_iff (before : List (List BufferedOp)) (front : List BufferedOp) (op : BufferedOp)
    (back : List BufferedOp) (n : Nat) (h : number (lastSeqNo before) front op back = some n) :
    (∀ between front' op' back' m,
      number (lastSeqNo (before ++ (front ++ op :: back) :: between)) front' op' back' = some m → n < m) ∧
    (∀ middle op' back' m, back = middle ++ op' :: back' →
      number (lastSeqNo before) (front ++ op :: middle) op' back' = some m →
      n ≠ m ∧ (n < m ↔ (∃ r, op = .update r) ∧ ∃ r, op' = .insert r)) ∧
    ∀ t t' rows, SpeedboatTable.Holds t rows → t.lastSeqNo = lastSeqNo before →
      t.Commits (builder (front ++ op :: back)) → t.commit (builder (front ++ op :: back)) = some t' →
      ∃ rows', t'.Holds rows' ∧ (∀ r, op.record = some r → ⟨r.id, r.version, r.source, n⟩ ∈ rows') ∧
        ∀ id doc, t'.visible id = some doc ↔ ∃ row ∈ t'.liveRows rows' id, row.source = doc ∧
          ∀ other ∈ t'.liveRows rows' id, other.seqNo ≤ row.seqNo := by
  obtain ⟨place, hplace, hlt, hn⟩ := number_eq h
  refine ⟨?_, ?_, fun t t' rows hholds hlast hcommits hcommit => ?_⟩
  · intro between front' op' back' m hm
    obtain ⟨place', -, hlt', hm⟩ := number_eq hm
    have hlast : lastSeqNo before + changes (front ++ op :: back) ≤
        lastSeqNo (before ++ (front ++ op :: back) :: between) := by
      rw [lastSeqNo, lastSeqNo, foldl_append]
      exact le_lastSeqNo between _
    omega
  · rintro middle op' back' m rfl hm
    obtain ⟨place', hplace', hlt', hm⟩ := number_eq hm
    rw [append_assoc, cons_append] at hlt' hm
    cases op <;> cases op' <;> cases hplace <;> cases hplace' <;>
      simp [builder_append, builder_cons, extend, buffer, SpeedboatCommitBuilder.insert,
        SpeedboatCommitBuilder.update] at hn hm ⊢ <;> omega
  · obtain ⟨hholds', -, -⟩ := hholds.commit hcommits hcommit
    refine ⟨_, hholds', fun r hr => mem_append_left _ ?_, hholds'.visible_iff⟩
    rw [hlast]
    exact mem_map.mpr ⟨(r, n), mem_numbered h hr, rfl⟩

theorem number_lt_iff_commits : number (lastSeqNo []) [] (.insert (.new "1" 1 (.object []) none)) [] = some 1 ∧
      number (lastSeqNo [[.insert (.new "1" 1 (.object []) none)]]) [] (.update (.new "1" 2 (.object []) none)) [] =
        some 2 ∧ 1 < 2 :=
  ⟨rfl, rfl, (number_lt_iff [] [] (.insert (.new "1" 1 (.object []) none)) [] 1 rfl).1 [] []
    (.update (.new "1" 2 (.object []) none)) [] 2 rfl⟩

/-- **Two inserts in one commit.** The first one has the greater number, so of two operations on an id the first
one is shown. -/
theorem number_descends :
    let first := RecordInput.new "1" 1 (.object [("x", .int 1)]) none
    let second := RecordInput.new "1" 2 (.object [("x", .int 2)]) none
    number 0 [] (.insert first) [.insert second] = some 2 ∧ number 0 [.insert first] (.insert second) [] = some 1 ∧
      ((SpeedboatTable.commit {} (builder [.insert first, .insert second])).bind fun t => t.visible "1") =
        some (.object [("x", .int 1)]) :=
  ⟨rfl, rfl, by decide +kernel⟩

end PowdrrEngine
