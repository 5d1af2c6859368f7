import PowdrrEngine.IngestRows
import PowdrrEngine.LibRun

/-! The ingest actor. Accepted requests wait in the actor until a commit has written the buffers of all
tables; a commit that fails at one table returns at once and is retried later, with the requests that
came in the meantime. Records that cannot be written together stop the actor. A segment is named by a digest
of its content, so here it is its content: writing the same lines again gives the same segment. -/

namespace PowdrrEngine

open SpeedboatCommitBuilder List Option Run AList Lists

/-- What an accepted message brings: new records for each table it names. -/
structure IngestResult where
  tables : Dict String SpeedboatCommitBuilder
  unwritten : ∀ table b, tables.lookup table = some b → b.Unwritten

section

variable {b b' : SpeedboatCommitBuilder} {t : SpeedboatTable} {table : String}

theorem SpeedboatCommitBuilder.unwritten_nil : SpeedboatCommitBuilder.Unwritten {} :=
  fun _ hr => absurd hr not_mem_nil

theorem SpeedboatCommitBuilder.Unwritten.insertRecord (hb : b.Unwritten) (docId : String) (version : Nat) (doc : Value)
    (status : Option Nat) : (insertRecord b docId version doc status).Unwritten := by
  intro r hr
  simp only [PowdrrEngine.insertRecord, insert, records, append_assoc, mem_append, mem_singleton] at hr
  rcases hr with hr | rfl | hr
  · exact hb r (mem_append_left _ hr)
  · rfl
  · exact hb r (mem_append_right _ hr)

theorem SpeedboatCommitBuilder.Unwritten.replaceRecord (hb : b.Unwritten) (existing : FullRecord) (doc : Value)
    (status : Option Nat) : (replaceRecord b existing doc status).Unwritten := by
  intro r hr
  simp only [PowdrrEngine.replaceRecord, update, delete, records, mem_append, mem_singleton] at hr
  rcases hr with hr | hr | rfl
  · exact hb r (mem_append_left _ hr)
  · exact hb r (mem_append_right _ hr)
  · rfl

theorem SpeedboatCommitBuilder.Unwritten.applyUpdateRequest (hb : b.Unwritten) {docId : String} {existing : Option FullRecord}
    {request : UpdateBody} {created updated : Option Nat}
    (h : applyUpdateRequest b docId existing request created updated = .ok b') : b'.Unwritten := by
  unfold PowdrrEngine.applyUpdateRequest at h
  split at h
  · cases h
  split at h
  · split at h
    · cases h
    · split at h
      · cases h
        exact hb.replaceRecord _ _ _
      · cases h
  split at h
  · split at h
    · cases h
    · cases h
      exact hb.insertRecord _ _ _ _
  · split at h
    · cases h
      exact hb.insertRecord _ _ _ _
    · cases h

theorem SpeedboatCommitBuilder.Unwritten.ingestCommand (hb : b.Unwritten) {c : IngestCommand}
    (h : ingestCommand table t b c = .ok b') : b'.Unwritten := by
  cases c with
  | create target uuid doc =>
    obtain ⟨_, -, h⟩ := exists_ok_of_bind h
    cases h
    exact hb.insertRecord _ _ _ _
  | index target uuid doc =>
    obtain ⟨_, -, h⟩ := exists_ok_of_bind h
    obtain ⟨existing, -, h⟩ := exists_ok_of_bind h
    cases existing with
    | none =>
      cases h
      exact hb.insertRecord _ _ _ _
    | some existing =>
      cases h
      exact hb.replaceRecord _ _ _
  | update target request =>
    obtain ⟨_, -, h⟩ := exists_ok_of_bind h
    split at h
    · cases h
    · obtain ⟨existing, -, h⟩ := exists_ok_of_bind h
      exact hb.applyUpdateRequest h
  | delete target =>
    obtain ⟨_, -, h⟩ := exists_ok_of_bind h
    split at h
    · cases h
    · obtain ⟨existing, -, h⟩ := exists_ok_of_bind h
      cases existing <;> cases h <;> exact hb

theorem unwritten_of_ingest {commands : List IngestCommand} (h : ingest table t commands = .ok b) : b.Unwritten := by
  exact foldlM_invariant_ok (fun c _ b b' hb hc => hb.ingestCommand hc) unwritten_nil h

end

theorem lookup_single {table other : String} {b b' : SpeedboatCommitBuilder}
    (h : (Dict.single table b).lookup other = some b') : b' = b := by
  have hmem : (⟨other, b'⟩ : Sigma fun _ : String => SpeedboatCommitBuilder) ∈ _ := Dict.lookup_eq_some_iff.mp h
  exact eq_of_heq (Sigma.mk.inj (mem_singleton.mp hmem)).2

def IngestResult.single (table : String) (b : SpeedboatCommitBuilder) (hb : b.Unwritten) : IngestResult where
  tables := Dict.single table b
  unwritten _ _ h := by
    rw [lookup_single h]
    exact hb

/-- The request of a single-table message that `ingest` accepts. -/
def IngestResult.ofIngest {table : String} {t : SpeedboatTable} {commands : List IngestCommand}
    {b : SpeedboatCommitBuilder} (h : ingest table t commands = .ok b) : IngestResult :=
  .single table b (unwritten_of_ingest h)

/-- The request of a message that creates one document. -/
def IngestResult.insert (table docId : String) (doc : Value) : IngestResult :=
  .ofIngest (rfl : ingest table {} [.create ⟨none, some docId⟩ "" doc] = .ok (insertRecord {} docId 1 doc (some 201)))

/-- A segment file of a table, `commit` or `delete`. -/
structure Segment where
  table : String
  label : String
  lines : List Record

/-- `commit_speedboat`: the segments of a commit; an empty buffer is not written. -/
def SpeedboatCommitBuilder.Built.segments (built : SpeedboatCommitBuilder.Built) (table : String) : List Segment :=
  (if built.lines.isEmpty then [] else [⟨table, "commit", built.lines⟩]) ++
    if built.deletes.isEmpty then []
    else [⟨table, "delete", built.deletes.map fun key => Dict.single "_id_seq_no" (.cell (.string key))⟩]

/-- How the commit of one table ends. -/
inductive CommitOutcome where
  | committed
  /-- The metadata has taken the commit, but its answer is an error. -/
  | unacknowledged
  | failed
  deriving DecidableEq

structure Answered where
  requests : List IngestResult
  buffers : Dict String SpeedboatCommitBuilder

/-- `IngestActor`, with the sequence numbers and the metadata it works on. -/
structure IngestActor where
  tables : Dict String SpeedboatCommitBuilder := ∅
  requests : List IngestResult := []
  /-- The last number drawn for each table. -/
  lastSeqNos : Dict String Nat := ∅
  segments : List Segment := []
  answered : List Answered := []

/-- A message to the actor. A commit comes with the order in which it visits the tables and with what
happens at each of them. -/
inductive IngestActorMessage where
  | ingest (result : IngestResult)
  | commit (order : List String) (outcome : String → CommitOutcome)

namespace IngestActor

variable (s : IngestActor)

def lastSeqNo (table : String) : Nat := (s.lastSeqNos.lookup table).getD 0

/-- The message `Ingest` where `ingest` succeeds, with `merge_table_buffers`. -/
def doIngest (result : IngestResult) : IngestActor :=
  { s with
    requests := s.requests ++ [result]
    tables := Dict.mergeWith extend s.tables result.tables }

/-- `SpeedboatCommitBuilder::commit` of the buffer of a table, and whether it succeeds. The records keep
the columns they get. -/
def commitTable (table : String) (outcome : CommitOutcome) : Option (Bool × IngestActor) := do
  let buffer ← s.tables.lookup table
  let built ← buffer.buildBuffers (s.lastSeqNo table)
  let s := { s with
    tables := s.tables.insert table built.builder
    lastSeqNos := s.lastSeqNos.insert table built.lastSeqNo }
  match outcome with
  | .committed => some (true, { s with segments := built.segments table ++ s.segments })
  | .unacknowledged => some (false, { s with segments := built.segments table ++ s.segments })
  | .failed => some (false, s)

/-- The loop of `commit`; it ends at the first failure. -/
def commitTables (outcome : String → CommitOutcome) : List String → IngestActor → Option (Bool × IngestActor)
  | [], s => some (true, s)
  | table :: order, s => do
    let (ok, s) ← s.commitTable table (outcome table)
    if ok then commitTables outcome order s else some (false, s)

def commit (order : List String) (outcome : String → CommitOutcome) : Option IngestActor :=
  if s.requests.isEmpty then some s
  else do
    let (ok, s) ← commitTables outcome order s
    if ok then
      some { s with
        requests := [], tables := ∅
        answered := s.answered ++ [⟨s.requests, s.tables⟩] }
    else some s

/-- `handle_message`; a commit visits every table once. -/
def handleMessage : IngestActorMessage → Option IngestActor
  | .ingest result => some (s.doIngest result)
  | .commit order outcome => if order.isPerm s.tables.keys then s.commit order outcome else none

end IngestActor

/-! ### Exactly once -/

def RecordInput.storedKey (r : RecordInput) : Option String :=
  r.existingNormalized.bind fun columns => columns.text "_id_seq_no"

/-- A record as it was sent. -/
def RecordInput.bare (r : RecordInput) : RecordInput := { r with existingNormalized := none }

def Segment.contains (seg : Segment) (table key : String) : Bool :=
  seg.table = table && seg.label = "commit" && seg.lines.any fun line => line.text "_id_seq_no" = some key

def Holding (requests : List IngestResult) (buffers : Dict String SpeedboatCommitBuilder) : Prop :=
  ∀ table, (requests.flatMap fun request => (Dict.getD request.tables table {}).insertRecords) =
      (Dict.getD buffers table {}).insertRecords.map RecordInput.bare ∧
    (requests.flatMap fun request => (Dict.getD request.tables table {}).updateRecords) =
      (Dict.getD buffers table {}).updateRecords.map RecordInput.bare

namespace IngestActor

variable (s : IngestActor)

/-- Exactly one committed segment holds the record. -/
def WrittenOnce (table key : String) : Prop :=
  ∃ seg ∈ s.segments, seg.contains table key = true ∧ ∀ seg' ∈ s.segments, seg'.contains table key = true → seg' = seg

/-- **Exactly once**: every record of every request answered with success is in one committed segment. -/
def ExactlyOnce : Prop :=
  ∀ a ∈ s.answered, Holding a.requests a.buffers ∧ ∀ table b, a.buffers.lookup table = some b → ∀ r ∈ b.records,
      ∃ key, r.storedKey = some key ∧ s.WrittenOnce table key

/-- A message brings no record to a table whose buffer is committed already, and no document has a
column with one of the engine's own names. -/
def Settled : IngestActorMessage → Prop
  | .ingest result => ∀ table b, result.tables.lookup table = some b → (∀ r ∈ b.records, r.source.unreserved = true) ∧
        (b.records ≠ [] → ∀ buffer, s.tables.lookup table = some buffer → ∀ r ∈ buffer.records,
          ∀ key, r.storedKey = some key → ∀ seg ∈ s.segments, seg.contains table key = false)
  | .commit _ _ => True

end IngestActor

/-! ### Building the buffers again -/

namespace SpeedboatCommitBuilder

theorem Written.bare {r r' : RecordInput} {seqNo : Nat} (h : Written r seqNo r') : r'.bare = r.bare := by
  cases h with
  | before _ _ _ _ hr' =>
    rw [hr']
    rfl
  | now _ _ _ _ _ hr' =>
    rw [hr']
    rfl

variable {b : SpeedboatCommitBuilder} {lastSeqNo : Nat} {built : Built}

theorem BuiltSpec.bare (h : BuiltSpec b lastSeqNo built) :
    built.builder.insertRecords.map RecordInput.bare = b.insertRecords.map RecordInput.bare ∧
      built.builder.updateRecords.map RecordInput.bare = b.updateRecords.map RecordInput.bare := by
  have hall : built.builder.records.map RecordInput.bare = b.records.map RecordInput.bare := by
    rw [← map_fst_numbered b lastSeqNo, List.map_map]
    exact (map_eq_map_of_forall₂ (h.records.imp fun p r' hr => hr.bare.symm)).symm
  rw [SpeedboatCommitBuilder.records, SpeedboatCommitBuilder.records, map_append, map_append] at hall
  exact append_inj hall (by rw [length_map, length_map, h.inserts])

end SpeedboatCommitBuilder

/-! ### One table -/

/-- Some segment holds the record. -/
def Committed (segments : List Segment) (table key : String) : Prop := ∃ seg ∈ segments, seg.contains table key = true

/-- **The invariant of a table**, for its buffer, its last sequence number and the segments. Either no
record of the buffer is committed, or the buffer as it is has been committed as one segment. -/
structure TableOk (table : String) (b : SpeedboatCommitBuilder) (lastSeqNo : Nat) (segments : List Segment) : Prop where
  plain : ∀ r ∈ b.records, r.source.unreserved = true
  numbered : ∀ r ∈ b.records, ∀ line, r.existingNormalized = some line →
    ∃ n, n ≤ lastSeqNo ∧ line.text "_id_seq_no" = some (idSeqNo r.id n)
  bounded : ∀ key, Committed segments table key → ∃ id n, key = idSeqNo id n ∧ n ≤ lastSeqNo
  unique : ∀ seg ∈ segments, ∀ seg' ∈ segments, ∀ key, seg.contains table key = true →
    seg'.contains table key = true → seg' = seg
  status : (∀ r ∈ b.records, ∀ key, r.storedKey = some key → ¬Committed segments table key) ∨
    ∃ lines, ⟨table, "commit", lines⟩ ∈ segments ∧ b.records.map (·.existingNormalized) = lines.map some ∧
      Record.Uniform lines

section

variable {table : String} {b b' : SpeedboatCommitBuilder} {lastSeqNo : Nat} {segments new : List Segment}
  {built : SpeedboatCommitBuilder.Built} {key : String} {lines : List Record}

theorem Segment.contains_commit : Segment.contains ⟨table, "commit", lines⟩ table key = true ↔
      ∃ line ∈ lines, line.text "_id_seq_no" = some key := by
  simp [Segment.contains]

theorem Committed.append_right (h : Committed segments table key) : Committed (new ++ segments) table key := by
  obtain ⟨seg, hseg, hkey⟩ := h
  exact ⟨seg, mem_append_right _ hseg, hkey⟩

section

variable (h : TableOk table b lastSeqNo segments)

include h

theorem TableOk.other (hnew : ∀ seg ∈ new, seg.table ≠ table) : TableOk table b lastSeqNo (new ++ segments) := by
  have hold : ∀ seg ∈ new ++ segments, ∀ key, seg.contains table key = true → seg ∈ segments := by
    intro seg hseg key hkey
    rcases mem_append.mp hseg with hseg | hseg
    · simp only [Segment.contains, Bool.and_eq_true, decide_eq_true_eq] at hkey
      exact absurd hkey.1.1 (hnew seg hseg)
    · exact hseg
  have hcommitted : ∀ key, Committed (new ++ segments) table key → Committed segments table key := by
    rintro key ⟨seg, hseg, hkey⟩
    exact ⟨seg, hold seg hseg key hkey, hkey⟩
  refine ⟨h.plain, h.numbered, fun key hkey => h.bounded key (hcommitted key hkey), ?_, ?_⟩
  · intro seg hseg seg' hseg' key hkey hkey'
    exact h.unique seg (hold seg hseg key hkey) seg' (hold seg' hseg' key hkey') key hkey hkey'
  · rcases h.status with hopen | ⟨lines, hmem, hlines⟩
    · exact Or.inl fun r hr key hkey hc => hopen r hr key hkey (hcommitted key hc)
    · exact Or.inr ⟨lines, mem_append_right _ hmem, hlines⟩

theorem TableOk.clear : TableOk table {} lastSeqNo segments := ⟨nofun, nofun, h.bounded, h.unique, Or.inl nofun⟩

theorem TableOk.merge (hnew : b'.Unwritten) (hplain : ∀ r ∈ b'.records, r.source.unreserved = true)
    (hopen : b'.records ≠ [] → ∀ r ∈ b.records, ∀ key, r.storedKey = some key → ¬Committed segments table key) :
    TableOk table (b.extend b') lastSeqNo segments := by
  have hnone : ∀ r ∈ b'.records, r.storedKey = none := fun r hr => by
    rw [RecordInput.storedKey, hnew r hr]
    rfl
  refine ⟨forall_records_extend.mpr ⟨h.plain, hplain⟩,
    forall_records_extend.mpr ⟨h.numbered, fun r hr line hline => ?_⟩, h.bounded, h.unique, ?_⟩
  · rw [hnew r hr] at hline
    cases hline
  by_cases hrecords : b'.records = []
  · obtain ⟨hinserts, hupdates⟩ := append_eq_nil_iff.mp hrecords
    have hsame : (b.extend b').records = b.records := by
      simp [records, extend, hinserts, hupdates]
    rw [hsame]
    exact h.status
  refine Or.inl (forall_records_extend.mpr ⟨hopen hrecords, fun r hr key hkey => ?_⟩)
  rw [hnone r hr] at hkey
  cases hkey

theorem TableOk.key_of_built (hb : SpeedboatCommitBuilder.BuiltSpec b lastSeqNo built) {r' : RecordInput}
    (hr' : r' ∈ built.builder.records) :
    ∃ r ∈ b.records, ∃ line n, r'.existingNormalized = some line ∧ r'.id = r.id ∧
      r'.source = r.source ∧ n ≤ built.lastSeqNo ∧
      line.text "_id_seq_no" = some (idSeqNo r'.id n) ∧
      (r.storedKey = some (idSeqNo r'.id n) ∨ lastSeqNo < n) := by
  obtain ⟨⟨r, m⟩, hp, hwritten⟩ := exists_mem_of_forall₂ hb.records hr'
  obtain ⟨hmem, hlt, hle⟩ := of_mem_numbered hp
  rw [← hb.lastSeqNo] at hle
  refine ⟨r, hmem, ?_⟩
  cases hwritten with
  | before line line' hline hpads hsame =>
    subst hsame
    obtain ⟨n, hn, hkey⟩ := h.numbered r hmem line hline
    refine ⟨line', n, rfl, rfl, rfl, by omega, (hpads.text _).trans hkey, Or.inl ?_⟩
    rw [RecordInput.storedKey, hline]
    exact hkey
  | now line line' hnone hline hpads hnew =>
    subst hnew
    have hreads := (RecordInput.normalized_reads hline (h.plain r hmem)).pads hpads
    exact ⟨line', m, rfl, rfl, rfl, hle, hreads.key, Or.inr hlt⟩

theorem TableOk.rebuilt (hb : SpeedboatCommitBuilder.BuiltSpec b lastSeqNo built) :
    TableOk table built.builder built.lastSeqNo segments := by
  refine ⟨fun r' hr' => ?_, fun r' hr' line hline => ?_, fun key hkey => ?_, h.unique, ?_⟩
  · obtain ⟨r, hr, _, _, _, _, hsource, _⟩ := h.key_of_built hb hr'
    rw [hsource]
    exact h.plain r hr
  · obtain ⟨_, _, line', n, hline', _, _, hn, hkey, _⟩ := h.key_of_built hb hr'
    cases hline'.symm.trans hline
    exact ⟨n, hn, hkey⟩
  · obtain ⟨id, n, hkey, hn⟩ := h.bounded key hkey
    exact ⟨id, n, hkey, hn.trans (hb.lastSeqNo ▸ Nat.le_add_right _ _)⟩
  rcases h.status with hopen | ⟨lines, hmem, hlines, huniform⟩
  · refine Or.inl fun r' hr' key hkey hcommitted => ?_
    obtain ⟨r, hr, line, n, hline, _, _, _, htext, hold | hnew⟩ := h.key_of_built hb hr'
    all_goals
      rw [RecordInput.storedKey, hline, bind_some, htext] at hkey
      cases hkey
    · exact hopen r hr _ hold hcommitted
    · obtain ⟨id, m, hkey, hm⟩ := h.bounded _ hcommitted
      rw [← (idSeqNo_inj hkey).2] at hm
      omega
  · -- A buffer whose records all have their lines, with the same columns, stays as it is.
    refine Or.inr ⟨lines, hmem, ?_, huniform⟩
    rw [← hb.again lines hlines huniform]
    exact hb.lines

end

theorem mem_segments {seg : Segment} : seg ∈ built.segments table ↔
    built.lines ≠ [] ∧ seg = ⟨table, "commit", built.lines⟩ ∨ built.deletes ≠ [] ∧
      seg = ⟨table, "delete", built.deletes.map fun key => Dict.single "_id_seq_no" (.cell (.string key))⟩ := by
  simp [Built.segments]

theorem contains_segments {seg : Segment} (hseg : seg ∈ built.segments table) (hkey : seg.contains table key = true) :
    seg = ⟨table, "commit", built.lines⟩ ∧ ∃ line ∈ built.lines, line.text "_id_seq_no" = some key := by
  rcases mem_segments.mp hseg with ⟨-, rfl⟩ | ⟨-, rfl⟩
  · exact ⟨rfl, Segment.contains_commit.mp hkey⟩
  · simp [Segment.contains] at hkey

theorem TableOk.stored (h : TableOk table b lastSeqNo segments)
    (hb : SpeedboatCommitBuilder.BuiltSpec b lastSeqNo built) :
    TableOk table built.builder built.lastSeqNo (built.segments table ++ segments) ∧
      ∀ r' ∈ built.builder.records, ∃ key, r'.storedKey = some key ∧
        Committed (built.segments table ++ segments) table key := by
  have hbuilt := h.rebuilt hb
  -- The record of a line.
  have hrecord : ∀ line ∈ built.lines, ∃ r' ∈ built.builder.records, r'.existingNormalized = some line := by
    intro line hline
    have hmem : some line ∈ built.builder.records.map (·.existingNormalized) := hb.lines ▸ mem_map_of_mem hline
    exact mem_map.mp hmem
  have hnew : ∀ key, (∃ line ∈ built.lines, line.text "_id_seq_no" = some key) → ∀ seg ∈
      built.segments table ++ segments, seg.contains table key = true → seg = ⟨table, "commit", built.lines⟩ := by
    rintro key ⟨line, hline, htext⟩ seg hseg hkey
    rcases mem_append.mp hseg with hseg | hseg
    · exact (contains_segments hseg hkey).1
    rcases hbuilt.status with hopen | ⟨lines, hmem, hlines⟩
    · obtain ⟨r', hr', hnormalized⟩ := hrecord line hline
      refine absurd ⟨seg, hseg, hkey⟩ (hopen r' hr' key ?_)
      rw [RecordInput.storedKey, hnormalized]
      exact htext
    · have hsame : built.lines = lines := map_injective_iff.mpr (some_injective _) (hb.lines.symm.trans hlines.1)
      subst hsame
      exact hbuilt.unique _ hmem seg hseg key (Segment.contains_commit.mpr ⟨line, hline, htext⟩) hkey
  refine ⟨⟨hbuilt.plain, hbuilt.numbered, ?_, ?_, ?_⟩, ?_⟩
  · rintro key ⟨seg, hseg, hkey⟩
    rcases mem_append.mp hseg with hseg | hseg
    · obtain ⟨-, line, hline, htext⟩ := contains_segments hseg hkey
      obtain ⟨r', hr', hnormalized⟩ := hrecord line hline
      obtain ⟨n, hn, hkey'⟩ := hbuilt.numbered r' hr' line hnormalized
      exact ⟨r'.id, n, some.inj (htext.symm.trans hkey'), hn⟩
    · exact hbuilt.bounded key ⟨seg, hseg, hkey⟩
  · intro seg hseg seg' hseg' key hkey hkey'
    by_cases hline : ∃ line ∈ built.lines, line.text "_id_seq_no" = some key
    · rw [hnew key hline seg hseg hkey, hnew key hline seg' hseg' hkey']
    have hold : ∀ seg ∈ built.segments table ++ segments, seg.contains table key = true → seg ∈ segments :=
      fun seg hseg hkey => (mem_append.mp hseg).resolve_left fun h => hline (contains_segments h hkey).2
    exact hbuilt.unique seg (hold seg hseg hkey) seg' (hold seg' hseg' hkey') key hkey hkey'
  · by_cases hlines : built.lines = []
    · left
      intro r' hr'
      have hrecords : built.builder.records = [] := by
        have hmap := hb.lines
        rw [hlines] at hmap
        exact map_eq_nil_iff.mp hmap
      rw [hrecords] at hr'
      cases hr'
    · exact Or.inr ⟨built.lines, mem_append_left _ (mem_segments.mpr (Or.inl ⟨hlines, rfl⟩)), hb.lines, hb.uniform⟩
  · intro r' hr'
    obtain ⟨_, _, line, n, hline, _, _, _, htext, _⟩ := h.key_of_built hb hr'
    refine ⟨idSeqNo r'.id n, by rw [RecordInput.storedKey, hline]; exact htext, ?_⟩
    have hmem : line ∈ built.lines := by
      have hsome : some line ∈ built.lines.map some := hb.lines ▸ mem_map.mpr ⟨r', hr', hline⟩
      obtain ⟨line', hline', heq⟩ := mem_map.mp hsome
      exact some.inj heq ▸ hline'
    exact ⟨_, mem_append_left _ (mem_segments.mpr (Or.inl ⟨ne_nil_of_mem hmem, rfl⟩)),
      Segment.contains_commit.mpr ⟨line, hmem, htext⟩⟩

end

/-! ### The actor -/

theorem getD_mergeWith_extend (d d' : Dict String SpeedboatCommitBuilder) (table : String) :
    Dict.getD (Dict.mergeWith extend d d') table {} = (Dict.getD d table {}).extend (Dict.getD d' table {}) := by
  rw [Dict.getD, Dict.lookup_mergeWith, Dict.getD, Dict.getD]
  cases d.lookup table with
  | none => cases d'.lookup table <;> rfl
  | some b =>
    cases d'.lookup table with
    | none => exact b.extend_nil.symm
    | some b' => rfl

namespace IngestActor

variable {table : String} {built : SpeedboatCommitBuilder.Built} {outcome : String → CommitOutcome}
  {order : List String} {ok : Bool}

def Done (s : IngestActor) (table : String) : Prop :=
  ∀ b, s.tables.lookup table = some b → ∀ r ∈ b.records, ∃ key, r.storedKey = some key ∧ Committed s.segments table key

/-- **The invariant of the actor.** -/
structure Inv (s : IngestActor) : Prop where
  tables : ∀ table, TableOk table (Dict.getD s.tables table {}) (s.lastSeqNo table) s.segments
  holding : Holding s.requests s.tables
  answered : ∀ a ∈ s.answered, Holding a.requests a.buffers ∧
    ∀ table b, a.buffers.lookup table = some b → ∀ r ∈ b.records,
      ∃ key, r.storedKey = some key ∧ Committed s.segments table key

theorem inv_new : Inv {} := ⟨fun _ => ⟨nofun, nofun, nofun, nofun, Or.inl nofun⟩, fun _ => ⟨rfl, rfl⟩, nofun⟩

variable {s s' : IngestActor}

theorem Inv.exactlyOnce (h : s.Inv) : s.ExactlyOnce := by
  intro a ha
  obtain ⟨hholding, hkeys⟩ := h.answered a ha
  refine ⟨hholding, fun table b hb r hr => ?_⟩
  obtain ⟨key, hkey, seg, hseg, hcontains⟩ := hkeys table b hb r hr
  exact ⟨key, hkey, seg, hseg, hcontains, fun seg' hseg' =>
    (h.tables table).unique seg hseg seg' hseg' key hcontains⟩

theorem Inv.doIngest (h : s.Inv) {result : IngestResult} (hsettled : s.Settled (.ingest result)) :
    (s.doIngest result).Inv := by
  refine ⟨fun table => ?_, fun table => ?_, h.answered⟩
  · change TableOk table (Dict.getD (Dict.mergeWith _ _ _) table {}) (s.lastSeqNo table) s.segments
    rw [getD_mergeWith_extend]
    cases hresult : result.tables.lookup table with
    | none =>
      rw [Dict.getD, Dict.getD, hresult, getD_none, extend_nil]
      exact h.tables table
    | some b =>
      obtain ⟨hplain, hopen⟩ := hsettled table b hresult
      have hb : Dict.getD result.tables table {} = b := by rw [Dict.getD, hresult]; rfl
      rw [hb]
      refine (h.tables table).merge (result.unwritten table b hresult) hplain ?_
      intro hrecords r hr key hkey hcommitted
      obtain ⟨seg, hseg, hcontains⟩ := hcommitted
      obtain ⟨buffer, hbuffer, hr⟩ := Dict.exists_of_getD (p := fun b : SpeedboatCommitBuilder => r ∈ b.records) hr not_mem_nil
      have hnot := hopen hrecords buffer hbuffer r hr key hkey seg hseg
      rw [hcontains] at hnot
      cases hnot
  · obtain ⟨hinserts, hupdates⟩ := h.holding table
    have hbare : ∀ r ∈ (Dict.getD result.tables table {}).records, r.bare = r := by
      intro r hr
      obtain ⟨b, hresult, hr⟩ := Dict.exists_of_getD (p := fun b : SpeedboatCommitBuilder => r ∈ b.records) hr not_mem_nil
      have hnone := result.unwritten table b hresult r hr
      cases r
      cases hnone
      rfl
    have hmap : ∀ l : List RecordInput, (∀ r ∈ l, r.bare = r) → l.map RecordInput.bare = l := by
      intro l hl
      conv_rhs => rw [← map_id l]
      exact map_congr_left hl
    unfold IngestActor.doIngest
    simp only [flatMap_append, flatMap_singleton, getD_mergeWith_extend, extend, map_append, hinserts, hupdates]
    exact ⟨by rw [hmap _ fun r hr => hbare r (mem_append_left _ hr)],
      by rw [hmap _ fun r hr => hbare r (mem_append_right _ hr)]⟩

/-- The actor after a table's buffer was built, with the segments the metadata has taken. -/
def withBuilt (s : IngestActor) (table : String) (built : SpeedboatCommitBuilder.Built)
    (new : List Segment) : IngestActor :=
  { s with
    tables := s.tables.insert table built.builder
    lastSeqNos := s.lastSeqNos.insert table built.lastSeqNo
    segments := new ++ s.segments }

variable {new : List Segment}

theorem getD_withBuilt_self : Dict.getD (s.withBuilt table built new).tables table {} = built.builder := by
  rw [Dict.getD, IngestActor.withBuilt, lookup_insert]
  rfl

theorem getD_withBuilt_ne {other : String} (h : other ≠ table) :
    Dict.getD (s.withBuilt table built new).tables other {} = Dict.getD s.tables other {} := by
  rw [Dict.getD, IngestActor.withBuilt, lookup_insert_ne h, Dict.getD]

theorem Inv.buffer (h : s.Inv) {buffer : SpeedboatCommitBuilder} (hbuffer : s.tables.lookup table = some buffer) :
    TableOk table buffer (s.lastSeqNo table) s.segments := by
  have hok := h.tables table
  rw [Dict.getD, hbuffer] at hok
  exact hok

theorem table_of_mem_segments {seg : Segment} (h : seg ∈ built.segments table) : seg.table = table := by
  rcases mem_segments.mp h with ⟨-, rfl⟩ | ⟨-, rfl⟩ <;> rfl

theorem Inv.withBuilt (h : s.Inv) {buffer : SpeedboatCommitBuilder} (hbuffer : s.tables.lookup table = some buffer)
    (hb : SpeedboatCommitBuilder.BuiltSpec buffer (s.lastSeqNo table) built)
    (hnew : new = [] ∨ new = built.segments table) : (s.withBuilt table built new).Inv := by
  have hself := h.buffer hbuffer
  refine ⟨fun other => ?_, fun other => ?_, fun a ha => ?_⟩
  · by_cases hother : other = table
    · subst hother
      have hlast : (s.withBuilt other built new).lastSeqNo other = built.lastSeqNo := by
        rw [lastSeqNo, IngestActor.withBuilt, lookup_insert]
        rfl
      rw [getD_withBuilt_self, hlast]
      rcases hnew with rfl | rfl
      · exact hself.rebuilt hb
      · exact (hself.stored hb).1
    have hlast : (s.withBuilt table built new).lastSeqNo other = s.lastSeqNo other := by
      rw [lastSeqNo, IngestActor.withBuilt, lookup_insert_ne hother, lastSeqNo]
    rw [getD_withBuilt_ne hother, hlast]
    refine (h.tables other).other fun seg hseg => ?_
    rcases hnew with rfl | rfl
    · cases hseg
    · rw [table_of_mem_segments hseg]
      exact Ne.symm hother
  · obtain ⟨hinserts, hupdates⟩ := h.holding other
    by_cases hother : other = table
    · subst hother
      rw [Dict.getD, hbuffer, getD_some] at hinserts hupdates
      obtain ⟨hbareInserts, hbareUpdates⟩ := hb.bare
      rw [getD_withBuilt_self, hbareInserts, hbareUpdates]
      exact ⟨hinserts, hupdates⟩
    · rw [getD_withBuilt_ne hother]
      exact ⟨hinserts, hupdates⟩
  · obtain ⟨hholding, hkeys⟩ := h.answered a ha
    refine ⟨hholding, fun table b hb r hr => ?_⟩
    obtain ⟨key, hkey, hcommitted⟩ := hkeys table b hb r hr
    exact ⟨key, hkey, hcommitted.append_right⟩

theorem commitTable_spec (h : s.Inv) {outcome : CommitOutcome} (hcommit : s.commitTable table outcome = some (ok, s')) :
    s'.Inv ∧ (∀ other, (s'.tables.lookup other).isSome = (s.tables.lookup other).isSome) ∧
      (ok = true → s'.Done table ∧ ∀ other, s.Done other → s'.Done other) := by
  simp only [commitTable, bind_eq_some] at hcommit
  obtain ⟨buffer, hbuffer, built, hbuilt, hcommit⟩ := hcommit
  have hb := buildBuffers_spec hbuilt
  have hkeys : ∀ new, ∀ other, ((s.withBuilt table built new).tables.lookup other).isSome =
      (s.tables.lookup other).isSome := by
    intro new other
    rw [IngestActor.withBuilt]
    by_cases hother : other = table
    · subst hother
      rw [lookup_insert, hbuffer]
      rfl
    · rw [lookup_insert_ne hother]
  cases outcome with
  | failed =>
    cases hcommit
    exact ⟨h.withBuilt hbuffer hb (Or.inl rfl), hkeys [], nofun⟩
  | unacknowledged =>
    cases hcommit
    exact ⟨h.withBuilt hbuffer hb (Or.inr rfl), hkeys (built.segments table), nofun⟩
  | committed =>
    cases hcommit
    refine ⟨h.withBuilt hbuffer hb (Or.inr rfl), hkeys (built.segments table), fun _ => ?_⟩
    have hdone : (s.withBuilt table built (built.segments table)).Done table := by
      intro b hlookup r hr
      rw [IngestActor.withBuilt, lookup_insert] at hlookup
      cases hlookup
      exact ((h.buffer hbuffer).stored hb).2 r hr
    refine ⟨hdone, fun other hother => ?_⟩
    by_cases hne : other = table
    · rw [hne]
      exact hdone
    · intro b hlookup r hr
      rw [lookup_insert_ne hne] at hlookup
      obtain ⟨key, hkey, hcommitted⟩ := hother b hlookup r hr
      exact ⟨key, hkey, hcommitted.append_right⟩

theorem commitTables_spec (h : s.Inv) (hcommit : commitTables outcome order s = some (ok, s')) :
    s'.Inv ∧ (∀ other, (s'.tables.lookup other).isSome = (s.tables.lookup other).isSome) ∧
      (ok = true → (∀ table ∈ order, s'.Done table) ∧ ∀ other, s.Done other → s'.Done other) := by
  induction order generalizing s with
  | nil =>
    cases hcommit
    exact ⟨h, fun _ => rfl, fun _ => ⟨nofun, fun _ hdone => hdone⟩⟩
  | cons table order ih =>
    rw [commitTables, bind_eq_some] at hcommit
    obtain ⟨⟨first, m⟩, hfirst, hrest⟩ := hcommit
    obtain ⟨hinv, hlookup, hdone⟩ := commitTable_spec h hfirst
    cases first with
    | false =>
      cases hrest
      exact ⟨hinv, hlookup, nofun⟩
    | true =>
      obtain ⟨hinv', hlookup', hdone'⟩ := ih hinv hrest
      refine ⟨hinv', fun other => (hlookup' other).trans (hlookup other), fun hok => ?_⟩
      obtain ⟨hself, hothers⟩ := hdone rfl
      obtain ⟨horder, hkept⟩ := hdone' hok
      exact ⟨forall_mem_cons.mpr ⟨hkept table hself, horder⟩, fun other hother =>
        hkept other (hothers other hother)⟩

theorem Inv.commit (h : s.Inv) (horder : order.isPerm s.tables.keys = true)
    (hcommit : s.commit order outcome = some s') : s'.Inv := by
  unfold IngestActor.commit at hcommit
  split at hcommit
  · cases hcommit
    exact h
  rw [bind_eq_some] at hcommit
  obtain ⟨⟨ok, m⟩, hloop, hend⟩ := hcommit
  obtain ⟨hinv, hlookup, hdone⟩ := commitTables_spec h hloop
  cases ok with
  | false =>
    cases hend
    exact hinv
  | true =>
    cases hend
    obtain ⟨hall, -⟩ := hdone rfl
    refine ⟨fun table => (hinv.tables table).clear, fun table => ⟨rfl, rfl⟩, fun a ha => ?_⟩
    rcases mem_append.mp ha with ha | ha
    · exact hinv.answered a ha
    obtain rfl := mem_singleton.mp ha
    refine ⟨hinv.holding, fun table b hb => hall table ?_ b hb⟩
    -- A table with a buffer is one of those the commit has visited.
    have hsome : (s.tables.lookup table).isSome = true := by
      rw [← hlookup, hb]
      rfl
    rw [(isPerm_iff.mp horder).mem_iff]
    exact mem_keys.mp (lookup_isSome.mp hsome)

theorem Inv.handleMessage (h : s.Inv) {message : IngestActorMessage} (hsettled : s.Settled message)
    (hstep : s.handleMessage message = some s') : s'.Inv := by
  cases message with
  | ingest result =>
    cases hstep
    exact h.doIngest hsettled
  | commit order outcome =>
    simp only [IngestActor.handleMessage] at hstep
    split at hstep
    · rename_i horder
      exact h.commit horder hstep
    · cases hstep

/-- **Exactly-once ingest.** In every run whose messages find no committed buffer for the records they
bring, every record of every request answered with success is in exactly one committed segment. -/
theorem exactlyOnce_of_exec {messages : List IngestActorMessage}
    (hrun : Run.exec IngestActor.handleMessage {} messages = some s)
    (hsettled : Run.Along IngestActor.handleMessage Settled {} messages) : s.ExactlyOnce :=
  (exec_invariant (fun _ _ _ hinv hok hstep => Inv.handleMessage hinv hok hstep) inv_new hsettled hrun).exactlyOnce

theorem settled_insert {docId : String} {doc : Value} (hs : s.segments = [])
    (hdoc : doc.unreserved = true) : s.Settled (.ingest (.insert table docId doc)) := by
  intro other b hb
  obtain rfl := lookup_single hb
  refine ⟨fun r hr => ?_, fun _ _ _ _ _ _ _ seg hseg => ?_⟩
  · rw [mem_singleton.mp hr]
    exact hdoc
  · rw [hs] at hseg
    cases hseg

/-- Two tables; the commit of the second one fails, and is retried. -/
theorem exactlyOnce_of_exec_retried : ∃ s, Run.exec IngestActor.handleMessage {}
      [.ingest (.insert "a" "1" (.object [("x", .int 1)])), .ingest (.insert "b" "2" (.object [])),
        .commit ["a", "b"] (fun table => if table = "b" then .failed else .committed),
        .commit ["b", "a"] fun _ => .committed] = some s ∧ s.answered.length = 1 ∧ s.ExactlyOnce := by
  refine exists_end (p := fun s => s.answered.length = 1) (by decide +kernel) fun s hs hone => ⟨hone, ?_⟩
  refine exactlyOnce_of_exec hs ⟨?_, fun m hm => ⟨?_, fun _ _ =>
    ⟨trivial, fun _ _ => ⟨trivial, fun _ _ => trivial⟩⟩⟩⟩
  · exact settled_insert rfl (by decide +kernel)
  · cases hm
    exact settled_insert rfl (by decide +kernel)

/-- A request comes for a table whose buffer is committed while the commit of another table has failed:
the next commit writes the first record again. -/
theorem not_exactlyOnce_failedCommit : ∃ s, Run.exec IngestActor.handleMessage {}
      [.ingest (.insert "a" "1" (.object [("x", .int 1)])), .ingest (.insert "b" "2" (.object [])),
        .commit ["a", "b"] (fun table => if table = "b" then .failed else .committed),
        .ingest (.insert "a" "3" (.object [])), .commit ["a", "b"] fun _ => .committed] = some s ∧
      ¬s.ExactlyOnce := by
  refine exists_end (p := fun s => (∃ a ∈ s.answered, ∃ b, a.buffers.lookup "a" = some b ∧
      ∃ r ∈ b.records, r.storedKey = some "1_1") ∧
    (s.segments.filter fun seg => seg.contains "a" "1_1").map (·.lines.length) = [2, 1]) (by decide +kernel) ?_
  rintro s - ⟨⟨a, ha, b, hb, r, hr, hkey⟩, hlengths⟩ honce
  obtain ⟨key, hstored, seg, -, -, hunique⟩ := (honce a ha).2 "a" b hb r hr
  cases hstored.symm.trans hkey
  -- Both segments would have to be the one.
  have hall : ∀ n ∈ (s.segments.filter fun seg => seg.contains "a" "1_1").map (·.lines.length),
      n = seg.lines.length := by
    intro n hn
    obtain ⟨seg', hseg', rfl⟩ := mem_map.mp hn
    obtain ⟨hmem, hcontains⟩ := mem_filter.mp hseg'
    rw [hunique seg' hmem hcontains]
  rw [hlengths] at hall
  have htwo := hall 2 (by decide)
  have hone := hall 1 (by decide)
  omega

/-! ### No record is lost -/

/-- The line has the columns of the record under some number, and beyond them nulls only. -/
def LineOf (line : Record) (r : RecordInput) : Prop := ∃ n columns, r.normalized n = some columns ∧ line.Pads columns

/-- A line of the record is in a committed segment of the table. -/
def Stored (s : IngestActor) (table : String) (r : RecordInput) : Prop :=
  ∃ lines line, ⟨table, "commit", lines⟩ ∈ s.segments ∧ line ∈ lines ∧ LineOf line r

/-- The record is stored, or its request is not answered yet and the record is in the buffer, where it may
have been given its line already. -/
def Kept (s : IngestActor) (result : IngestResult) (table : String) (r : RecordInput) : Prop :=
  s.Stored table r ∨ result ∈ s.requests ∧ ∃ r' ∈ (Dict.getD s.tables table {}).records, r'.bare = r ∧
    ∀ line, r'.existingNormalized = some line → LineOf line r

variable {result : IngestResult} {r : RecordInput}

theorem Kept.commitTable {visited : String} {outcome : CommitOutcome} (h : s.Kept result table r)
    (hcommit : s.commitTable visited outcome = some (ok, s')) :
    s'.Kept result table r ∧ (ok = true → table = visited → s'.Stored table r) ∧
      (s.Stored table r → s'.Stored table r) := by
  simp only [IngestActor.commitTable, bind_eq_some] at hcommit
  obtain ⟨buffer, hbuffer, built, hbuilt, hcommit⟩ := hcommit
  have hb := buildBuffers_spec hbuilt
  obtain ⟨new, rfl, hnew⟩ : ∃ new, s' = s.withBuilt visited built new ∧
      (ok = true → new = built.segments visited) := by
    cases outcome with
    | committed | unacknowledged =>
      cases hcommit
      exact ⟨_, rfl, fun _ => rfl⟩
    | failed =>
      cases hcommit
      exact ⟨[], rfl, nofun⟩
  have hgrows : s.Stored table r → (s.withBuilt visited built new).Stored table r := by
    rintro ⟨lines, line, hmem, hline⟩
    exact ⟨lines, line, mem_append_right _ hmem, hline⟩
  rcases h with hstored | ⟨hwaits, r', hr', hbare, hline⟩
  · exact ⟨Or.inl (hgrows hstored), fun _ _ => hgrows hstored, hgrows⟩
  by_cases hvisited : table = visited
  · subst hvisited
    rw [Dict.getD, hbuffer] at hr'
    rw [getD_some, ← map_fst_numbered buffer (s.lastSeqNo table)] at hr'
    obtain ⟨p, hp, hsame⟩ := List.mem_map.mp hr'
    obtain ⟨r'', hr'', hwritten⟩ := exists_right_of_forall₂ hb.records hp
    rw [hsame] at hwritten
    obtain ⟨line, hexisting, hof⟩ : ∃ line, r''.existingNormalized = some line ∧ LineOf line r := by
      cases hwritten with
      | before old line hold hpads hnew =>
        obtain ⟨n, columns, hn, hcolumns⟩ := hline old hold
        exact ⟨line, by rw [hnew], n, columns, hn, hpads.trans hcolumns⟩
      | now columns line _ hcolumns hpads hnew =>
        exact ⟨line, by rw [hnew], p.2, columns, hbare ▸ hcolumns, hpads⟩
    refine ⟨Or.inr ⟨hwaits, r'', by rwa [getD_withBuilt_self], hwritten.bare.trans hbare, ?_⟩, fun hok _ => ?_, hgrows⟩
    · intro line' hline'
      cases hexisting.symm.trans hline'
      exact hof
    · have hsome : some line ∈ built.lines.map some := hb.lines ▸ mem_map.mpr ⟨r'', hr'', hexisting⟩
      have hmem : line ∈ built.lines := by simpa using hsome
      refine ⟨built.lines, line, mem_append_left _ ?_, hmem, hof⟩
      rw [hnew hok]
      exact mem_segments.mpr (Or.inl ⟨ne_nil_of_mem hmem, rfl⟩)
  · exact ⟨Or.inr ⟨hwaits, r', by rwa [getD_withBuilt_ne hvisited], hbare, hline⟩, fun _ h => absurd h hvisited, hgrows⟩

theorem Kept.commitTables (h : s.Kept result table r) (hcommit : commitTables outcome order s = some (ok, s')) :
    s'.Kept result table r ∧ (ok = true → table ∈ order → s'.Stored table r) ∧
      (s.Stored table r → s'.Stored table r) := by
  induction order generalizing s with
  | nil =>
    cases hcommit
    exact ⟨h, nofun, id⟩
  | cons visited order ih =>
    rw [IngestActor.commitTables, bind_eq_some] at hcommit
    obtain ⟨⟨first, m⟩, hfirst, hrest⟩ := hcommit
    obtain ⟨hkept, hstored, hgrows⟩ := h.commitTable hfirst
    cases first with
    | false =>
      cases hrest
      exact ⟨hkept, nofun, hgrows⟩
    | true =>
      obtain ⟨hkept', hstored', hgrows'⟩ := ih hkept hrest
      refine ⟨hkept', fun hok hmem => ?_, hgrows' ∘ hgrows⟩
      rcases mem_cons.mp hmem with heq | hmem
      · exact hgrows' (hstored rfl heq)
      · exact hstored' hok hmem

theorem Kept.handleMessage (h : s.Kept result table r) {message : IngestActorMessage}
    (hstep : s.handleMessage message = some s') : s'.Kept result table r := by
  cases message with
  | ingest new =>
    cases hstep
    rcases h with h | ⟨hwaits, r', hr', hrest⟩
    · exact Or.inl h
    · refine Or.inr ⟨mem_append_left _ hwaits, r', ?_, hrest⟩
      rw [IngestActor.doIngest, getD_mergeWith_extend]
      exact mem_records_extend.mpr (Or.inl hr')
  | commit order outcome =>
    simp only [IngestActor.handleMessage, IngestActor.commit] at hstep
    obtain ⟨horder, hstep⟩ := ite_none_right_eq_some.mp hstep
    split at hstep
    · cases hstep
      exact h
    rw [bind_eq_some] at hstep
    obtain ⟨⟨ok, m⟩, hloop, hend⟩ := hstep
    obtain ⟨hkept, hstored, hgrows⟩ := h.commitTables hloop
    cases ok with
    | false =>
      cases hend
      exact hkept
    | true =>
      cases hend
      refine Or.inl (?_ : m.Stored table r)
      rcases h with h | ⟨-, r', hr', -⟩
      · exact hgrows h
      -- A record in a buffer is in one that the commit has visited.
      obtain ⟨b, hb, -⟩ := Dict.exists_of_getD (p := fun b : SpeedboatCommitBuilder => r' ∈ b.records) hr' not_mem_nil
      refine hstored rfl ((isPerm_iff.mp horder).mem_iff.mpr (mem_keys.mp (lookup_isSome.mp ?_)))
      rw [hb]
      rfl

end IngestActor

end PowdrrEngine
