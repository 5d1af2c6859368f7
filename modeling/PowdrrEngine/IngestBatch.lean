import PowdrrEngine.IngestRows

/-! A payload against its operations one by one. Every operation of a payload looks at the committed
table, so on each id a payload is a batch, and the operations sent separately are a run. -/

namespace PowdrrEngine

open IngestCommand List SpeedboatCommitBuilder SpeedboatTable

/-! ### Commands as operations on the versions of an id -/

/-- A document that can be written. -/
def documentOf (doc : Value) : Option Value := if doc.isObject = true then some doc else none

/-- The source an update leaves where it finds the given one. -/
def UpdateBody.updated (request : UpdateBody) (existing : Option Value) : Option Value :=
  if request.script.isSome ∨ request.scriptedUpsert = some true then none
  else
    match existing with
    | some source => request.doc.bind source.mergeSource
    | none => (if request.docAsUpsert.getD false then request.doc else request.upsert).bind documentOf

def CommandTarget.allowed (table : String) (target : CommandTarget) : Bool :=
  target.index.all fun index => index = table

namespace IngestCommand

def key : IngestCommand → String
  | .create target uuid _ | .index target uuid _ => target.id.getD uuid
  | .update target _ | .delete target => target.id.getD ""

def target : IngestCommand → CommandTarget
  | .create target _ _ | .index target _ _ | .update target _ | .delete target => target

def op (table : String) : IngestCommand → Batch.Op Value
  | .create target _ doc => .push (if target.allowed table = true then documentOf doc else none)
  | .index target _ doc =>
    if target.allowed table = true then .replace fun _ => documentOf doc else .push none
  | .update target request =>
    if target.allowed table = true ∧ target.id.isSome then .replace request.updated else .push none
  | .delete target => if target.allowed table = true ∧ target.id.isSome then .delete else .push none

/-- The documents of a command keep to their own columns. -/
def unreserved : IngestCommand → Bool
  | .create _ _ doc | .index _ _ doc => doc.unreserved
  | .update _ request => request.doc.all Value.unreserved && request.upsert.all Value.unreserved
  | .delete _ => true

/-- The operations of a payload on an id. -/
def opsOn (table id : String) (commands : List IngestCommand) : List (Batch.Op Value) :=
  (commands.filter fun c => c.key = id).map (op table)

end IngestCommand

theorem opsOn_append (table id : String) (l l' : List IngestCommand) : opsOn table id (l ++ l') =
      opsOn table id l ++ opsOn table id l' := by
  rw [opsOn, filter_append, map_append]
  rfl

theorem opsOn_single (table id : String) (c : IngestCommand) :
    opsOn table id [c] = if c.key = id then [c.op table] else [] := by
  unfold opsOn
  by_cases h : c.key = id
  · rw [if_pos h, filter_cons_of_pos (by simpa using h)]
    rfl
  · rw [if_neg h, filter_cons_of_neg (by simpa using h)]
    rfl

/-! ### What a payload collects -/

def FullRecord.asDelete (row : FullRecord) : RecordDelete := ⟨row.id, row.seqNo, row.version⟩

/-- The builder of one document: it is new, or takes the place of the existing one. -/
def putRecord (docId : String) (existing : Option FullRecord) (doc : Value) (created updated : Option Nat) :
    SpeedboatCommitBuilder :=
  match existing with
  | none => insertRecord {} docId 1 doc created
  | some existing => replaceRecord {} existing doc updated

/-- The inserts or the updates of a builder. -/
def SpeedboatCommitBuilder.side (b : SpeedboatCommitBuilder) (inserts : Bool) : List RecordInput :=
  bif inserts then b.insertRecords else b.updateRecords

/-- What the operations of a payload leave in a builder. -/
structure Collects (table : String) (t : SpeedboatTable) (rows : List FullRecord)
    (commands : List IngestCommand) (b : SpeedboatCommitBuilder) : Prop where
  commits : t.Commits b
  few : b.changes ≤ 2 * commands.length
  sources : ∀ id inserts, ((b.side inserts).filter fun r => r.id = id).map (·.source) =
    ((opsOn table id commands).filter fun op => op.isInsert (t.versions id) == inserts).flatMap
      (Batch.Op.made (t.versions id))
  deletes : b.deleteRecords = (commands.filter fun c => (c.op table).drops).flatMap fun c =>
    (t.liveRows rows c.key).head?.toList.map FullRecord.asDelete

section

variable {table : String} {t : SpeedboatTable} {rows : List FullRecord} {c : IngestCommand}
  {commands commands' : List IngestCommand} {b b' : SpeedboatCommitBuilder} {status : Option Nat} {doc : Value}

theorem Collects.nil : Collects table t rows [] {} :=
  ⟨⟨nofun, nofun, nofun, nofun⟩, Nat.le_refl 0, fun _ inserts => by cases inserts <;> rfl, rfl⟩

theorem Collects.append (h : Collects table t rows commands b) (h' : Collects table t rows commands' b') :
    Collects table t rows (commands ++ commands') (b.extend b') := by
  refine ⟨⟨forall_records_extend.mpr ⟨h.commits.unwritten, h'.commits.unwritten⟩,
    forall_records_extend.mpr ⟨h.commits.plain, h'.commits.plain⟩,
    forall_records_extend.mpr ⟨h.commits.counted, h'.commits.counted⟩,
    forall_mem_append.mpr ⟨h.commits.deletes, h'.commits.deletes⟩⟩, ?_, fun id inserts => ?_, ?_⟩
  · have hfew := h.few
    have hfew' := h'.few
    simp only [changes, extend, length_append] at hfew hfew' ⊢
    omega
  · rw [opsOn_append, filter_append, flatMap_append, ← h.sources, ← h'.sources, ← map_append, ← filter_append]
    cases inserts <;> rfl
  · rw [filter_append, flatMap_append, ← h.deletes, ← h'.deletes]
    rfl

theorem Collects.one (hcommits : t.Commits b) (hfew : b.changes ≤ 2) (hids : ∀ r ∈ b.records, r.id = c.key)
    (hsources : ∀ inserts, (b.side inserts).map (·.source) =
      if (c.op table).isInsert (t.versions c.key) = inserts then (c.op table).made (t.versions c.key) else [])
    (hdeletes : b.deleteRecords = if (c.op table).drops = true then
      (t.liveRows rows c.key).head?.toList.map FullRecord.asDelete else []) :
    Collects table t rows [c] b := by
  refine ⟨hcommits, hfew, fun id inserts => ?_, ?_⟩
  · have hside : ∀ r ∈ b.side inserts, r.id = c.key := by
      cases inserts with
      | false => exact fun r hr => hids r (mem_append_right _ hr)
      | true => exact fun r hr => hids r (mem_append_left _ hr)
    rw [opsOn_single]
    by_cases hid : c.key = id
    · subst hid
      rw [filter_eq_self.mpr (by simpa using hside), hsources, if_pos rfl]
      by_cases h : (c.op table).isInsert (t.versions c.key) = inserts <;> simp [h]
    · rw [filter_eq_nil_iff.mpr fun r hr => by simpa [hside r hr] using hid, if_neg hid]
      rfl
  · rw [hdeletes]
    cases h : (c.op table).drops <;> simp [h]

section

variable (hobject : doc.isObject = true) (hown : doc.unreserved = true)

include hobject hown

theorem Collects.inserted (hinsert : (c.op table).isInsert (t.versions c.key) = true)
    (hmade : (c.op table).made (t.versions c.key) = [doc])
    (hdrops : (c.op table).drops = true → t.liveRows rows c.key = []) :
    Collects table t rows [c] (insertRecord {} c.key 1 doc status) := by
  refine .one ⟨forall_mem_singleton.mpr rfl, forall_mem_singleton.mpr ⟨hobject, hown⟩,
    forall_mem_singleton.mpr (Nat.le_add_left 1 _), nofun⟩ (Nat.le_succ 1) (forall_mem_singleton.mpr rfl) (fun inserts => ?_) ?_
  · rw [hinsert, hmade]
    cases inserts <;> rfl
  split
  · rename_i h
    rw [hdrops h]
    rfl
  · rfl

theorem Collects.replaced (h : t.Holds rows) {existing : FullRecord} {older : List FullRecord}
    (hlive : t.liveRows rows c.key = existing :: older) (hinsert : (c.op table).isInsert (t.versions c.key) = false)
    (hmade : (c.op table).made (t.versions c.key) = [doc]) (hdrops : (c.op table).drops = true) :
    Collects table t rows [c] (replaceRecord {} existing doc status) := by
  have hmem : existing ∈ t.liveRows rows c.key := hlive ▸ mem_cons_self
  have hrow := mem_of_mem_filter hmem
  refine .one ⟨forall_mem_singleton.mpr rfl, forall_mem_singleton.mpr ⟨hobject, hown⟩,
      forall_mem_singleton.mpr (Nat.succ_le_succ ((h.counted existing hrow).trans (h.bounded existing hrow))),
      forall_mem_singleton.mpr (h.bounded existing hrow)⟩ (Nat.le_refl 2)
    (forall_mem_singleton.mpr (h.live_plain hmem).2) (fun inserts => ?_) ?_
  · rw [hinsert, hmade]
    cases inserts <;> rfl
  · rw [if_pos hdrops, hlive]
    rfl

theorem Collects.put (h : t.Holds rows) {make : Option Value → Option Value} {created updated : Option Nat}
    (hop : c.op table = .replace make) (hmake : make (t.versions c.key).head? = some doc) :
    Collects table t rows [c]
      (putRecord c.key (t.liveRows rows c.key).head? doc created updated) := by
  have hmade : (c.op table).made (t.versions c.key) = [doc] := by
    rw [hop, Batch.Op.made, hmake]
    rfl
  have hversions := h.versions c.key
  cases hlive : t.liveRows rows c.key with
  | nil =>
    rw [hlive] at hversions
    exact .inserted hobject hown (by rw [hop]; exact isEmpty_iff.mpr hversions) hmade fun _ => hlive
  | cons existing older =>
    rw [hlive] at hversions
    refine .replaced hobject hown h hlive ?_ hmade (by rw [hop]; rfl)
    rw [hop]
    exact (congrArg List.isEmpty hversions).trans rfl

end

theorem Collects.deleted (h : t.Holds rows) (hop : c.op table = .delete) : Collects table t rows [c]
      ⟨[], [], (t.liveRows rows c.key).head?.toList.map FullRecord.asDelete⟩ := by
  refine .one ⟨nofun, nofun, nofun, fun d hd => ?_⟩ ?_ nofun (fun inserts => ?_) ?_
  · obtain ⟨row, hrow, rfl⟩ := mem_map.mp hd
    have hmem := mem_of_mem_head? (Option.mem_toList.mp hrow)
    exact h.bounded row (mem_of_mem_filter hmem)
  · cases (t.liveRows rows c.key).head? with
    | none => exact Nat.zero_le 2
    | some row => exact Nat.le_succ 1
  · rw [hop]
    cases inserts <;> rfl
  · rw [hop]
    rfl

end

/-! ### One command -/

section

variable {table : String} {t : SpeedboatTable} {rows : List FullRecord} {c : IngestCommand} {doc : Value}
  {docId : String}

section

variable (b : SpeedboatCommitBuilder)

theorem insertRecord_extend (docId : String) (version : Nat) (doc : Value) (status : Option Nat) :
    insertRecord b docId version doc status = b.extend (insertRecord {} docId version doc status) := by
  simp [insertRecord, SpeedboatCommitBuilder.insert, SpeedboatCommitBuilder.extend]

theorem replaceRecord_extend (existing : FullRecord) (doc : Value) (status : Option Nat) :
    replaceRecord b existing doc status = b.extend (replaceRecord {} existing doc status) := by
  simp [replaceRecord, SpeedboatCommitBuilder.update, SpeedboatCommitBuilder.delete, SpeedboatCommitBuilder.extend]

theorem delete_extend (d : RecordDelete) : b.delete d = b.extend (SpeedboatCommitBuilder.delete {} d) := by
  simp [SpeedboatCommitBuilder.delete, SpeedboatCommitBuilder.extend]

end

/-- One of the few records of the builder cannot be written. -/
structure SpeedboatCommitBuilder.Unwritable (b : SpeedboatCommitBuilder) : Prop where
  unwritten : b.Unwritten
  few : b.changes ≤ 2
  failing : ∃ r ∈ b.records, r.source.isObject = false

theorem insertRecord_unwritable {version : Nat} {status : Option Nat}
    (h : ¬doc.isObject = true) : (insertRecord {} docId version doc status).Unwritable :=
  ⟨fun r hr => by rw [mem_singleton.mp hr]; rfl, Nat.le_succ 1, _, mem_singleton_self _,
    Bool.eq_false_iff.mpr h⟩

theorem putRecord_unwritable {existing : Option FullRecord} {created updated : Option Nat} (h : ¬doc.isObject = true) :
    (putRecord docId existing doc created updated).Unwritable := by
  cases existing with
  | none => exact insertRecord_unwritable h
  | some existing =>
    refine ⟨fun r hr => ?_, Nat.le_refl 2, _, mem_singleton_self _, Bool.eq_false_iff.mpr h⟩
    rw [mem_singleton.mp hr]
    rfl

/-- What a command does: it is refused at once, or adds its record and its delete, and is then refused if its
document cannot be written. -/
inductive CommandSpec (table : String) (t : SpeedboatTable) (rows : List FullRecord) (c : IngestCommand) : Prop where
  | refused (e : IngestFailure) (h : (c.op table).accepted (t.versions c.key) = false)
      (herror : ∀ b, ingestCommand table t b c = .error e)
  | adds (b' : SpeedboatCommitBuilder) (hok : ∀ b, ingestCommand table t b c = .ok (b.extend b'))
      (h : (c.op table).accepted (t.versions c.key) = true ∧ Collects table t rows [c] b' ∨
        (c.op table).accepted (t.versions c.key) = false ∧ b'.Unwritable)

theorem CommandSpec.put (h : t.Holds rows) {make : Option Value → Option Value} (hop : c.op table = .replace make)
    (hmake : make (t.versions c.key).head? = documentOf doc) (hown : doc.unreserved = true)
    (hok : ∀ b, ingestCommand table t b c =
      .ok (b.extend (putRecord c.key (t.liveRows rows c.key).head? doc (some 201) (some 200)))) :
    CommandSpec table t rows c := by
  refine .adds _ hok ?_
  rw [hop, Batch.Op.accepted, hmake]
  by_cases hobject : doc.isObject = true
  · rw [documentOf, if_pos hobject] at hmake ⊢
    exact Or.inl ⟨rfl, .put hobject hown h hop hmake⟩
  · rw [documentOf, if_neg hobject]
    exact Or.inr ⟨rfl, putRecord_unwritable hobject⟩

theorem commandSpec_of_not_allowed (h : ¬c.target.allowed table = true) : CommandSpec table t rows c := by
  have hindex : checkIndex table c.target = .error (.refused "Can not provide a index in create here") := if_neg h
  cases c with
  | create | index =>
    dsimp only [target] at h hindex
    refine .refused _ ?_ fun b => by rw [ingestCommand, hindex]; rfl
    rw [op, if_neg h]
    rfl
  | update | delete =>
    dsimp only [target] at h hindex
    refine .refused _ ?_ fun b => by rw [ingestCommand, hindex]; rfl
    rw [op, if_neg fun hboth => h hboth.1]
    rfl

theorem checkIndex_of_allowed {target : CommandTarget} (h : target.allowed table = true) :
    checkIndex table target = .ok () := if_pos h

section

variable {target : CommandTarget} (hallowed : target.allowed table = true)

include hallowed

theorem commandSpec_create (uuid : String) (doc : Value) (hown : doc.unreserved = true) :
    CommandSpec table t rows (.create target uuid doc) := by
  refine .adds (insertRecord {} (target.id.getD uuid) 1 doc (some 201)) (fun b => ?_) ?_
  · rw [ingestCommand, checkIndex_of_allowed hallowed]
    exact congrArg Except.ok (insertRecord_extend ..)
  have hop : op table (.create target uuid doc) = .push (documentOf doc) := by rw [op, if_pos hallowed]
  rw [hop]
  by_cases hobject : doc.isObject = true
  · rw [documentOf, if_pos hobject] at hop ⊢
    refine Or.inl ⟨rfl, ?_⟩
    exact .inserted hobject hown (by rw [hop]; rfl) (by rw [hop]; rfl) fun hdrops => by
      rw [hop] at hdrops
      cases hdrops
  · rw [documentOf, if_neg hobject]
    exact Or.inr ⟨rfl, insertRecord_unwritable hobject⟩

theorem commandSpec_index (h : t.Holds rows) (uuid : String) (doc : Value) (hown : doc.unreserved = true) :
    CommandSpec table t rows (.index target uuid doc) := by
  have hop : op table (.index target uuid doc) = .replace fun _ => documentOf doc := if_pos hallowed
  refine .put h hop rfl hown fun b => ?_
  rw [ingestCommand, checkIndex_of_allowed hallowed]
  dsimp only [Bind.bind, Except.bind]
  rw [h.existingDoc, key]
  cases (t.liveRows rows (target.id.getD uuid)).head? with
  | none => exact congrArg Except.ok (insertRecord_extend ..)
  | some existing => exact congrArg Except.ok (replaceRecord_extend ..)

theorem commandSpec_delete (h : t.Holds rows) : CommandSpec table t rows (.delete target) := by
  cases hid : target.id with
  | none =>
    refine .refused (.refused "Bulk delete requires an _id") ?_ fun b => ?_
    · rw [op, if_neg (by simp [hid])]
      rfl
    · rw [ingestCommand, checkIndex_of_allowed hallowed, hid]
      rfl
  | some docId =>
    have hop : op table (.delete target) = .delete := if_pos ⟨hallowed, by rw [hid]; rfl⟩
    refine .adds _ (fun b => ?_) (Or.inl ⟨by rw [hop]; rfl, .deleted h hop⟩)
    rw [ingestCommand, checkIndex_of_allowed hallowed, key, hid]
    dsimp only [Bind.bind, Except.bind]
    rw [h.existingDoc, Option.getD_some]
    cases (t.liveRows rows docId).head? with
    | none => exact congrArg Except.ok b.extend_nil.symm
    | some existing => exact congrArg Except.ok (delete_extend ..)

end

theorem applyUpdateRequest_spec (docId : String) (existing : Option FullRecord) (request : UpdateBody)
    (created updated : Option Nat) (hexisting : ∀ e ∈ existing, e.source.unreserved = true)
    (hdoc : request.doc.all Value.unreserved = true) (hupsert : request.upsert.all Value.unreserved = true) :
    (request.updated (existing.map (·.source)) = none ∧
      ∃ e, ∀ b, applyUpdateRequest b docId existing request created updated = .error e) ∨
    ∃ doc, doc.unreserved = true ∧ request.updated (existing.map (·.source)) = documentOf doc ∧
      ∀ b, applyUpdateRequest b docId existing request created updated =
        .ok (b.extend (putRecord docId existing doc created updated)) := by
  unfold applyUpdateRequest UpdateBody.updated
  by_cases hscript : request.script.isSome ∨ request.scriptedUpsert = some true
  · exact Or.inl ⟨if_pos hscript, _, fun _ => if_pos hscript⟩
  simp only [if_neg hscript]
  cases existing with
  | some existing =>
    cases hpatch : request.doc with
    | none => exact Or.inl ⟨rfl, _, fun _ => rfl⟩
    | some patch =>
      simp only [Option.map_some, Option.bind_some]
      cases hmerged : existing.source.mergeSource patch with
      | none => exact Or.inl ⟨rfl, _, fun _ => rfl⟩
      | some merged =>
        rw [hpatch] at hdoc
        obtain ⟨hown, hobject⟩ := Value.mergeSource_spec hmerged (hexisting existing rfl) hdoc
        exact Or.inr ⟨merged, hown, (if_pos hobject).symm, fun _ => congrArg Except.ok (replaceRecord_extend ..)⟩
  | none =>
    by_cases hasUpsert : request.docAsUpsert.getD false = true
    · simp only [Option.map_none, if_pos hasUpsert]
      cases hd : request.doc with
      | none => exact Or.inl ⟨rfl, _, fun _ => rfl⟩
      | some doc =>
        rw [hd] at hdoc
        exact Or.inr ⟨doc, hdoc, rfl, fun _ => congrArg Except.ok (insertRecord_extend ..)⟩
    simp only [Option.map_none, if_neg hasUpsert]
    cases hd : request.upsert with
    | none => exact Or.inl ⟨rfl, _, fun _ => rfl⟩
    | some doc =>
      rw [hd] at hupsert
      exact Or.inr ⟨doc, hupsert, rfl, fun _ => congrArg Except.ok (insertRecord_extend ..)⟩

theorem commandSpec_update {target : CommandTarget} (hallowed : target.allowed table = true) (h : t.Holds rows)
    (request : UpdateBody) (hown : unreserved (.update target request) = true) :
    CommandSpec table t rows (.update target request) := by
  cases hid : target.id with
  | none =>
    refine .refused (.refused "Bulk update requires an _id") ?_ fun b => ?_
    · rw [op, if_neg (by simp [hid])]
      rfl
    · rw [ingestCommand, checkIndex_of_allowed hallowed, hid]
      rfl
  | some docId =>
    have hop : op table (.update target request) = .replace request.updated := if_pos ⟨hallowed, by rw [hid]; rfl⟩
    have hkey : key (.update target request) = docId := by
      rw [key, hid]
      rfl
    have hhead : (t.versions docId).head? = (t.liveRows rows docId).head?.map (·.source) := by
      rw [h.versions, List.head?_map]
    have hrun : ∀ b, ingestCommand table t b (.update target request) =
        applyUpdateRequest b docId (t.liveRows rows docId).head? request (some 201) (some 200) := by
      intro b
      rw [ingestCommand, checkIndex_of_allowed hallowed, hid]
      dsimp only [Bind.bind, Except.bind]
      rw [h.existingDoc]
    have hplain : ∀ e ∈ (t.liveRows rows docId).head?, e.source.unreserved = true := fun e he =>
      (h.live_plain (mem_of_mem_head? he)).1.2
    obtain ⟨hdoc, hupsert⟩ := (Bool.and_eq_true _ _).mp hown
    rcases applyUpdateRequest_spec docId _ request (some 201) (some 200) hplain hdoc hupsert with
      ⟨hupdated, e, herror⟩ | ⟨doc, hdocOwn, hupdated, hok⟩
    · refine .refused e ?_ fun b => (hrun b).trans (herror b)
      rw [hop, hkey, Batch.Op.accepted, hhead, hupdated]
      rfl
    · rw [← hhead, ← hkey] at hupdated
      refine .put h hop hupdated hdocOwn fun b => ?_
      rw [hkey, hrun, hok]

theorem commandSpec (h : t.Holds rows) (hown : c.unreserved = true) : CommandSpec table t rows c := by
  by_cases hallowed : c.target.allowed table = true
  · cases c with
    | create target uuid doc => exact commandSpec_create hallowed uuid doc hown
    | index target uuid doc => exact commandSpec_index hallowed h uuid doc hown
    | update target request => exact commandSpec_update hallowed h request hown
    | delete target => exact commandSpec_delete hallowed h
  · exact commandSpec_of_not_allowed hallowed

end

/-! ### Payloads -/

/-- Every operation of a payload is accepted where the table stands. -/
def Accepted (table : String) (t : SpeedboatTable) (commands : List IngestCommand) : Prop :=
  ∀ c ∈ commands, (c.op table).accepted (t.versions c.key) = true

instance (table : String) (t : SpeedboatTable) (commands : List IngestCommand) :
    Decidable (Accepted table t commands) := by
  unfold Accepted
  infer_instance

section

variable {table : String} {t : SpeedboatTable} {rows : List FullRecord} {commands : List IngestCommand}

theorem Collects.filter_liveRows {b : SpeedboatCommitBuilder} (h : t.Holds rows)
    (hb : Collects table t rows commands b) (id : String) :
    ((t.liveRows rows id).filter fun row => row.key ∉ b.deleteRecords.map (·.asValue)) =
      if (opsOn table id commands).any Batch.Op.drops = true then
        (t.liveRows rows id).tail else t.liveRows rows id := by
  have hdeleted : ∀ row ∈ t.liveRows rows id, row.key ∈ b.deleteRecords.map (·.asValue) ↔
      (opsOn table id commands).any Batch.Op.drops = true ∧ (t.liveRows rows id).head? = some row := by
    intro row hrow
    have hid := (h.live_plain hrow).2
    simp only [hb.deletes, mem_map, mem_flatMap, mem_filter, Option.mem_toList, any_eq_true, opsOn, decide_eq_true_eq]
    constructor
    · rintro ⟨d, ⟨c, ⟨hc, hdrops⟩, first, hfirst, rfl⟩, hkey⟩
      obtain ⟨hsame, hseq⟩ := idSeqNo_inj hkey
      have hmem := mem_of_mem_head? hfirst
      have hckey : c.key = id := ((h.live_plain hmem).2.symm.trans hsame).trans hid
      have hrows : first = row := inj_on_of_nodup_map h.nodup_seqNo (mem_of_mem_filter hmem)
        (mem_of_mem_filter hrow) hseq
      rw [hckey, hrows] at hfirst
      exact ⟨⟨c.op table, ⟨c, ⟨hc, hckey⟩, rfl⟩, hdrops⟩, hfirst⟩
    · rintro ⟨⟨op, ⟨c, ⟨hc, hckey⟩, rfl⟩, hdrops⟩, hhead⟩
      refine ⟨row.asDelete, ⟨c, ⟨hc, hdrops⟩, row, ?_, rfl⟩, rfl⟩
      rw [hckey]
      exact hhead
  have hnodup : (t.liveRows rows id).Nodup := List.Nodup.sublist filter_sublist (List.Nodup.of_map _ h.nodup_seqNo)
  by_cases hdrops : (opsOn table id commands).any Batch.Op.drops = true
  · rw [if_pos hdrops]
    cases hlive : t.liveRows rows id with
    | nil => rfl
    | cons first older =>
      rw [hlive] at hdeleted hnodup
      rw [filter_cons_of_neg, tail_cons, filter_eq_self]
      · intro row hrow
        have hne : first ≠ row := fun h => (nodup_cons.mp hnodup).1 (h ▸ hrow)
        rw [decide_eq_true_iff, hdeleted row (mem_cons_of_mem _ hrow)]
        exact fun h => hne (Option.some.inj h.2)
      · rw [decide_eq_true_iff, hdeleted first mem_cons_self, not_not]
        exact ⟨hdrops, rfl⟩
  · rw [if_neg hdrops, filter_eq_self]
    intro row hrow
    rw [decide_eq_true_iff, hdeleted row hrow]
    exact fun h => hdrops h.1

/-- The documents that the operations of a payload write. -/
def written (table : String) (t : SpeedboatTable) (commands : List IngestCommand) : List Value :=
  commands.flatMap fun c => (c.op table).made (t.versions c.key)

theorem Collects.mem_sources {b : SpeedboatCommitBuilder} (hb : Collects table t rows commands b) (doc : Value) :
    doc ∈ b.records.map (·.source) ↔ doc ∈ written table t commands := by
  have hside : ∀ r, r ∈ b.records ↔ ∃ inserts, r ∈ b.side inserts := fun r => by
    simp [SpeedboatCommitBuilder.side, SpeedboatCommitBuilder.records, or_comm]
  constructor
  · intro hdoc
    obtain ⟨r, hr, rfl⟩ := mem_map.mp hdoc
    obtain ⟨inserts, hr⟩ := (hside r).mp hr
    have hmem : r.source ∈ ((b.side inserts).filter fun r' => r'.id = r.id).map (·.source) :=
      mem_map_of_mem (mem_filter.mpr ⟨hr, decide_eq_true rfl⟩)
    rw [hb.sources] at hmem
    obtain ⟨op, hop, hmade⟩ := mem_flatMap.mp hmem
    obtain ⟨c, hc, rfl⟩ := mem_map.mp (mem_of_mem_filter hop)
    obtain ⟨hc, hkey⟩ := mem_filter.mp hc
    rw [← of_decide_eq_true hkey] at hmade
    exact mem_flatMap.mpr ⟨c, hc, hmade⟩
  · intro hdoc
    obtain ⟨c, hc, hmade⟩ := mem_flatMap.mp hdoc
    have hop : c.op table ∈ opsOn table c.key commands := mem_map_of_mem (mem_filter.mpr ⟨hc, decide_eq_true rfl⟩)
    have hmem : doc ∈ ((b.side ((c.op table).isInsert (t.versions c.key))).filter fun r => r.id = c.key).map
        (·.source) := by
      rw [hb.sources]
      exact mem_flatMap.mpr ⟨_, mem_filter.mpr ⟨hop, beq_self_eq_true _⟩, hmade⟩
    obtain ⟨r, hr, rfl⟩ := mem_map.mp hmem
    exact mem_map_of_mem ((hside r).mpr ⟨_, mem_of_mem_filter hr⟩)

theorem sameTypes_congr {docs docs' : List Value} (h : ∀ doc, doc ∈ docs ↔ doc ∈ docs') :
    SameTypes docs ↔ SameTypes docs' := by
  simp only [SameTypes, PowdrrSchema.Agree, forall_mem_map, h]

theorem sameTypes_of_eq {docs : List Value} (h : ∀ doc ∈ docs, ∀ other ∈ docs, doc = other) : SameTypes docs := by
  simp only [SameTypes, PowdrrSchema.Agree, forall_mem_map]
  intro doc hdoc other hother name t u ht hu _ _
  rw [h doc hdoc other hother] at ht
  exact Option.some.inj (ht.symm.trans hu)

theorem changes_eq (b : SpeedboatCommitBuilder) (n : Nat) :
    n + b.insertRecords.length + b.updateRecords.length + b.deleteRecords.length = n + b.changes := by
  rw [SpeedboatCommitBuilder.changes]
  omega

/-- A payload goes through where each operation is accepted and the documents written do not have a column in
two types. -/
def GoesThrough (table : String) (t : SpeedboatTable) (commands : List IngestCommand) : Prop :=
  Accepted table t commands ∧ SameTypes (written table t commands)

section

variable (h : t.Holds rows) (hown : ∀ c ∈ commands, c.unreserved = true)

include h hown

theorem ingest_accepted (haccepted : Accepted table t commands) (b : SpeedboatCommitBuilder) :
    ∃ b', commands.foldlM (ingestCommand table t) b = .ok (b.extend b') ∧ Collects table t rows commands b' := by
  induction commands generalizing b with
  | nil => exact ⟨{}, congrArg Except.ok b.extend_nil.symm, .nil⟩
  | cons c commands ih =>
    have hc := haccepted c mem_cons_self
    have hspec : CommandSpec table t rows c := commandSpec h (hown c mem_cons_self)
    cases hspec with
    | refused e hrefused _ => exact absurd (hc.symm.trans hrefused) (by decide)
    | adds first hok hfirst =>
      obtain ⟨-, hfirst⟩ := hfirst.resolve_right fun h => absurd (hc.symm.trans h.1) (by decide)
      obtain ⟨rest, hrest, hcollects⟩ :=
        ih (forall_mem_cons.mp hown).2 (forall_mem_cons.mp haccepted).2 (b.extend first)
      refine ⟨first.extend rest, ?_, hfirst.append hcollects⟩
      rw [foldlM_cons, hok, ← extend_assoc]
      exact hrest

theorem ingest_unwritten (b : SpeedboatCommitBuilder) : (∃ e, commands.foldlM (ingestCommand table t) b = .error e) ∨
      ∃ b', commands.foldlM (ingestCommand table t) b = .ok (b.extend b') ∧ b'.Unwritten ∧
        b'.changes ≤ 2 * commands.length ∧
        (¬Accepted table t commands → ∃ r ∈ b'.records, r.source.isObject = false) := by
  induction commands generalizing b with
  | nil =>
    refine Or.inr ⟨{}, congrArg Except.ok b.extend_nil.symm, nofun, Nat.le_refl 0, fun hnot => ?_⟩
    exact absurd (fun c hc => absurd hc not_mem_nil) hnot
  | cons c commands ih =>
    have hspec : CommandSpec table t rows c := commandSpec h (hown c mem_cons_self)
    have hrest := ih (forall_mem_cons.mp hown).2
    cases hspec with
    | refused e _ herror =>
      left
      refine ⟨e, ?_⟩
      rw [foldlM_cons, herror]
      rfl
    | adds first hok hfirst =>
      rw [foldlM_cons, hok]
      rcases hrest (b.extend first) with ⟨e, he⟩ | ⟨rest, hrun, hunwritten, hfew, hbad⟩
      · exact Or.inl ⟨e, he⟩
      have hfirstUnwritten : first.Unwritten := hfirst.elim (·.2.commits.unwritten) (·.2.unwritten)
      have hfirstFew : first.changes ≤ 2 := hfirst.elim (·.2.few) (·.2.few)
      refine Or.inr ⟨first.extend rest, ?_, forall_records_extend.mpr ⟨hfirstUnwritten, hunwritten⟩, ?_, fun hnot => ?_⟩
      · rw [← extend_assoc]
        exact hrun
      · simp only [SpeedboatCommitBuilder.changes, extend, length_append, length_cons] at hfew hfirstFew ⊢
        omega
      · rcases hfirst with ⟨hfirst, -⟩ | ⟨-, hfirst⟩
        · obtain ⟨r, hr, hobject⟩ := hbad fun hall => hnot (forall_mem_cons.mpr ⟨hfirst, hall⟩)
          exact ⟨r, mem_records_extend.mpr (Or.inr hr), hobject⟩
        · obtain ⟨r, hr, hobject⟩ := hfirst.failing
          exact ⟨r, mem_records_extend.mpr (Or.inl hr), hobject⟩

/-- A payload that does not go through draws numbers at most. -/
theorem commitPayload_refused (hroom : t.lastSeqNo + 2 * commands.length < 2 ^ 63)
    (hnot : ¬GoesThrough table t commands) :
    ∃ n, t.lastSeqNo ≤ n ∧ n ≤ t.lastSeqNo + 2 * commands.length ∧
      t.commitPayload table commands = { t with lastSeqNo := n } := by
  unfold SpeedboatTable.commitPayload ingest
  by_cases haccepted : Accepted table t commands
  · obtain ⟨b, hb, hcollects⟩ := ingest_accepted h hown haccepted {}
    rw [hb]
    dsimp only
    have hfew := hcollects.few
    have hnone : t.commit b = none := by
      rw [← Option.not_isSome_iff_eq_none, hcollects.commits.isSome_commit (by omega),
        sameTypes_congr hcollects.mem_sources]
      exact fun hsame => hnot ⟨haccepted, hsame⟩
    rw [nil_extend, hnone, changes_eq]
    exact ⟨_, Nat.le_add_right _ _, by omega, rfl⟩
  rcases ingest_unwritten h hown {} with ⟨e, he⟩ | ⟨b, hb, hunwritten, hfew, hbad⟩
  · rw [he]
    exact ⟨t.lastSeqNo, Nat.le_refl _, Nat.le_add_right _ _, rfl⟩
  · rw [hb]
    dsimp only
    rw [nil_extend, commit_eq_none t hunwritten (hbad haccepted), changes_eq]
    exact ⟨_, Nat.le_add_right _ _, by omega, rfl⟩

/-- **A payload is a batch on every id.** -/
theorem commitPayload_accepted (hroom : t.lastSeqNo + 2 * commands.length < 2 ^ 63)
    (hthrough : GoesThrough table t commands) :
    ∃ rows', (t.commitPayload table commands).Holds rows' ∧
      (t.commitPayload table commands).lastSeqNo ≤ t.lastSeqNo + 2 * commands.length ∧
      ∀ id, (t.commitPayload table commands).versions id = Batch.batch (t.versions id) (opsOn table id commands) := by
  obtain ⟨haccepted, hsame⟩ := hthrough
  obtain ⟨b, hb, hcollects⟩ := ingest_accepted h hown haccepted {}
  rw [nil_extend] at hb
  have hfew := hcollects.few
  obtain ⟨t', hcommit⟩ := Option.isSome_iff_exists.mp ((hcollects.commits.isSome_commit (by omega)).mpr
    ((sameTypes_congr hcollects.mem_sources).mpr hsame))
  obtain ⟨hholds, -, hlast⟩ := h.commit hcollects.commits hcommit
  have hpayload : t.commitPayload table commands = t' := by
    unfold SpeedboatTable.commitPayload ingest
    rw [hb]
    dsimp only
    rw [hcommit]
    rfl
  rw [hpayload]
  refine ⟨_, hholds, by omega, fun id => ?_⟩
  have hinserts := hcollects.sources id true
  have hupdates := hcollects.sources id false
  simp only [SpeedboatCommitBuilder.side, cond_true, cond_false, beq_true, beq_false] at hinserts hupdates
  rw [h.versions_commit hcollects.commits hcommit, hcollects.filter_liveRows h, Batch.batch, Batch.added,
    SpeedboatCommitBuilder.records, filter_append, map_append, hinserts, hupdates, h.versions id]
  split
  · rw [map_tail]
  · rfl

end

/-- An operation on its own goes through where it is accepted. -/
theorem goesThrough_one {c : IngestCommand} : GoesThrough table t [c] ↔ Accepted table t [c] := by
  refine ⟨fun hthrough => hthrough.1, fun haccepted => ⟨haccepted, sameTypes_of_eq ?_⟩⟩
  intro doc hdoc other hother
  rw [written, flatMap_singleton] at hdoc hother
  cases hop : c.op table <;> rw [hop, Batch.Op.made] at hdoc hother
  case delete => cases hdoc
  all_goals
    rw [Option.mem_toList] at hdoc hother
    exact Option.some.inj (hdoc.symm.trans hother)

theorem commitPayload_one (h : t.Holds rows) {c : IngestCommand} (hown : c.unreserved = true)
    (hroom : t.lastSeqNo + 2 < 2 ^ 63) :
    ∃ rows', (t.commitPayload table [c]).Holds rows' ∧ (t.commitPayload table [c]).lastSeqNo ≤ t.lastSeqNo + 2 ∧
      ∀ id, (t.commitPayload table [c]).versions id = Batch.run (t.versions id) (opsOn table id [c]) := by
  have hall : ∀ c' ∈ [c], c'.unreserved = true := forall_mem_singleton.mpr hown
  by_cases hthrough : GoesThrough table t [c]
  · obtain ⟨rows', hholds, hlast, hversions⟩ := commitPayload_accepted h hall hroom hthrough
    refine ⟨rows', hholds, hlast, fun id => (hversions id).trans ?_⟩
    rw [opsOn_single]
    split
    · rename_i hid
      subst hid
      exact Batch.batch_single (hthrough.1 c mem_cons_self)
    · rfl
  obtain ⟨n, hle, hn, hpayload⟩ := commitPayload_refused h hall hroom hthrough
  rw [hpayload]
  refine ⟨rows, h.skip hle, hn, fun id => ?_⟩
  rw [opsOn_single]
  split
  · rename_i hid
    subst hid
    refine (Batch.Op.apply_of_not_accepted fun hop => hthrough (goesThrough_one.mpr fun c' hc' => ?_)).symm
    rw [mem_singleton.mp hc']
    exact hop
  · rfl

theorem commitSeparately_versions (h : t.Holds rows) (hown : ∀ c ∈ commands, c.unreserved = true)
    (hroom : t.lastSeqNo + 2 * commands.length < 2 ^ 63) :
    ∃ rows', (t.commitSeparately table commands).Holds rows' ∧ ∀ id, (t.commitSeparately table commands).versions id =
        Batch.run (t.versions id) (opsOn table id commands) := by
  induction commands generalizing t rows with
  | nil => exact ⟨rows, h, fun _ => rfl⟩
  | cons c commands ih =>
    rw [length_cons] at hroom
    obtain ⟨rows', hholds, hlast, hone⟩ := commitPayload_one h (hown c mem_cons_self) (by omega)
    obtain ⟨rows'', hholds', hrest⟩ := ih hholds (fun c hc => hown c (mem_cons_of_mem _ hc)) (by omega)
    refine ⟨rows'', hholds', fun id => (hrest id).trans ?_⟩
    rw [hone, ← Batch.run_append, ← opsOn_append]
    rfl

end

end PowdrrEngine
