import PowdrrEngine.IngestBuild
import PowdrrEngine.IngestBulk

/-! The rows behind a table. As long as no document has a column with one of the names the engine uses
itself, a stored record is read back as it was written, the live records of an id are rows in the order
of their sequence numbers, and looking an id up gives the first of them. -/

namespace PowdrrEngine

open List SpeedboatCommitBuilder Nat

/-! ### Documents that keep to their own columns -/

namespace Value

variable {members : List (String × Value)} {value : Value} {m : String × Value}

theorem denormalizeMembers_eq_flatMap (path : String) (members : List (String × Value)) :
    denormalizeMembers path members = members.flatMap (denormalizeMember path) := by
  induction members with
  | nil => rw [denormalizeMembers, flatMap_nil]
  | cons member members ih => rw [denormalizeMembers, ih, flatMap_cons]

theorem mem_insertMember {key : String} (h : m ∈ insertMember members key value) : m ∈ members ∨ m = (key, value) := by
  unfold insertMember at h
  split at h
  · obtain ⟨m', hmem, heq⟩ := mem_map.mp h
    split at heq
    · exact Or.inr heq.symm
    · exact Or.inl (heq ▸ hmem)
  · rcases mem_append.mp h with h | h
    · exact Or.inl h
    · exact Or.inr (mem_singleton.mp h)

theorem mem_of_get_object {key : String}
    (h : (Value.object members).get key = some value) : (key, value) ∈ members := by
  obtain ⟨⟨k, v⟩, hfind, hv⟩ := Option.map_eq_some_iff.mp h
  cases hv
  have hk : k = key := by simpa using List.find?_some hfind
  exact hk ▸ mem_of_find?_eq_some hfind

/-- The value of a key after a merge. -/
def patched (existing : Option Value) (value : Value) : Value := existing.elim value (mergeValue · value)

theorem mergeMember_eq {key : String} : mergeMember members (key, value) =
    insertMember members key (patched ((Value.object members).get key) value) := by
  rw [mergeMember]
  cases (Value.object members).get key <;> rfl

def HasColumn (path : String) (members : List (String × Value)) (name : String) : Prop :=
  ∃ value, (name, value) ∈ denormalizeMembers path members

theorem HasColumn.of_member {path name : String} (hm : m ∈ members) (h : (name, value) ∈ denormalizeMember path m) :
    HasColumn path members name := by
  refine ⟨value, ?_⟩
  rw [denormalizeMembers_eq_flatMap]
  exact mem_flatMap.mpr ⟨m, hm, h⟩

mutual

theorem hasColumn_mergeMembers (path name : String) (members : List (String × Value)) :
    (updates : List (String × Value)) → HasColumn path (mergeMembers members updates) name →
      HasColumn path members name ∨ HasColumn path updates name
  | [], h => by
    rw [mergeMembers] at h
    exact Or.inl h
  | update :: updates, h => by
    rw [mergeMembers] at h
    rcases hasColumn_mergeMembers path name (mergeMember members update) updates h with h | ⟨v, hv⟩
    · rcases hasColumn_mergeMember path name members update h with h | ⟨v, hv⟩
      · exact Or.inl h
      · exact Or.inr (.of_member mem_cons_self hv)
    · right
      refine ⟨v, ?_⟩
      rw [denormalizeMembers]
      exact mem_append_right _ hv
termination_by structural updates => updates

theorem hasColumn_mergeMember (path name : String) (members : List (String × Value)) :
    (update : String × Value) → HasColumn path (mergeMember members update) name →
      HasColumn path members name ∨ ∃ value, (name, value) ∈ denormalizeMember path update
  | (key, value), ⟨v, hv⟩ => by
    rw [mergeMember_eq, denormalizeMembers_eq_flatMap] at hv
    obtain ⟨m, hm, hmv⟩ := mem_flatMap.mp hv
    rcases mem_insertMember hm with hm | rfl
    · exact Or.inl (.of_member hm hmv)
    cases hget : (Value.object members).get key with
    | none =>
      rw [hget] at hmv
      exact Or.inr ⟨v, hmv⟩
    | some existing =>
      rw [hget] at hmv
      rcases hasColumn_mergeValue path name key existing value ⟨v, hmv⟩ with ⟨w, hw⟩ | hw
      · exact Or.inl (.of_member (mem_of_get_object hget) hw)
      · exact Or.inr hw
termination_by structural update => update

theorem hasColumn_mergeValue (path name key : String) (existing : Value) :
    (value : Value) → (∃ v, (name, v) ∈ denormalizeMember path (key, mergeValue existing value)) →
      (∃ v, (name, v) ∈ denormalizeMember path (key, existing)) ∨ ∃ v, (name, v) ∈ denormalizeMember path (key, value)
  | .object updates, ⟨v, hv⟩ => by
    cases existing with
    | object members =>
      rw [mergeValue, denormalizeMember] at hv
      rcases hasColumn_mergeMembers (path ++ key ++ "_") name members updates ⟨v, hv⟩ with h | h
      · left
        rw [denormalizeMember]
        exact h
      · right
        rw [denormalizeMember]
        exact h
    | null | bool | number | string | array =>
      simp only [mergeValue] at hv
      exact Or.inr ⟨v, hv⟩
  | .null, h | .bool _, h | .number _, h | .string _, h | .array _, h => by
    simp only [mergeValue] at h
    exact Or.inr h
termination_by structural value => value

end

theorem unreserved_object :
    (Value.object members).unreserved = true ↔ ∀ name, HasColumn "" members name → name ∉ ownColumns := by
  simp only [unreserved, createDenormalizedValue, Option.all_some, all_eq_true, decide_eq_true_eq]
  constructor
  · rintro h name ⟨v, hv⟩
    exact h _ hv
  · intro h c hc
    exact h c.1 ⟨c.2, hc⟩

theorem mergeSource_spec {existing patch merged : Value} (h : existing.mergeSource patch = some merged)
    (hexisting : existing.unreserved = true) (hpatch : patch.unreserved = true) :
    merged.unreserved = true ∧ merged.isObject = true := by
  cases existing with
  | object members =>
    cases patch with
    | object updates =>
      cases h
      refine ⟨unreserved_object.mpr fun name hname => ?_, rfl⟩
      rcases hasColumn_mergeMembers "" name members updates hname with h | h
      · exact unreserved_object.mp hexisting name h
      · exact unreserved_object.mp hpatch name h
    | null | bool | number | string | array => cases h
  | null | bool | number | string | array => cases h

end Value

/-! ### Rows -/

theorem idSeqNo_inj {id id' : String} {n n' : Nat} (h : idSeqNo id n = idSeqNo id' n') : id = id' ∧ n = n' := by
  obtain ⟨hid, hn⟩ := Text.glue_inj_of_notMem_right (c := '_') (Text.underscore_notMem_toString_nat n)
    (Text.underscore_notMem_toString_nat n') h
  exact ⟨hid, Text.toString_nat_injective hn⟩

namespace FullRecord

def key (row : FullRecord) : String := idSeqNo row.id row.seqNo

/-- A row whose document is an object that keeps to its own columns. -/
def Plain (row : FullRecord) : Prop := row.source.isObject = true ∧ row.source.unreserved = true

end FullRecord

namespace SpeedboatTable

variable {row : FullRecord} {id : String} (t : SpeedboatTable) (rows : List FullRecord)

/-- The records of a table are these rows, the newest first. -/
structure Holds : Prop where
  records : List.Forall₂ Record.Reads t.records rows
  plain : ∀ row ∈ rows, row.Plain
  descending : rows.Pairwise fun row older => older.seqNo < row.seqNo
  bounded : ∀ row ∈ rows, row.seqNo ≤ t.lastSeqNo
  counted : ∀ row ∈ rows, row.version ≤ row.seqNo
  deleted : ∀ key ∈ t.deleted, ∃ id n, key = idSeqNo id n ∧ n ≤ t.lastSeqNo

def liveRows (id : String) : List FullRecord :=
  rows.filter fun row => row.id = id ∧ row.key ∉ t.deleted

/-- The sources of the live records of an id, newest first. -/
def versions (id : String) : List Value := (t.lookupById [id]).filterMap Record.document

variable {t rows}

theorem holds_new : Holds {} [] := ⟨.nil, nofun, List.Pairwise.nil, nofun, nofun, nofun⟩

/-- Numbers that were drawn for nothing. -/
theorem Holds.skip (h : t.Holds rows) {n : Nat} (hn : t.lastSeqNo ≤ n) : Holds { t with lastSeqNo := n } rows := by
  refine ⟨h.records, h.plain, h.descending, fun row hrow => (h.bounded row hrow).trans hn, h.counted, fun key hkey => ?_⟩
  obtain ⟨id, m, hkey, hm⟩ := h.deleted key hkey
  exact ⟨id, m, hkey, hm.trans hn⟩

theorem Holds.nodup_seqNo (h : t.Holds rows) : (rows.map (·.seqNo)).Nodup :=
  pairwise_map.mpr (h.descending.imp fun hlt => ne_of_gt hlt)

theorem Holds.lookupById (h : t.Holds rows) (id : String) :
    List.Forall₂ Record.Reads (t.lookupById [id]) (t.liveRows rows id) := by
  unfold SpeedboatTable.lookupById liveRecords liveRows
  rw [filter_filter]
  refine rel_filter (fun r row hreads => ?_) h.records
  beta_reduce
  rw [decide_eq_true_iff]
  simp [hreads.id, hreads.key, FullRecord.key]

theorem Holds.live_plain (h : t.Holds rows) (hrow : row ∈ t.liveRows rows id) : row.Plain ∧ row.id = id := by
  obtain ⟨hmem, hlive⟩ := mem_filter.mp hrow
  exact ⟨h.plain row hmem, (of_decide_eq_true hlive).1⟩

theorem filterMap_document {records : List Record} (h : List.Forall₂ Record.Reads records rows) :
    records.filterMap Record.document = rows.map (·.source) := by
  induction h with
  | nil => rfl
  | cons hreads _ ih => rw [filterMap_cons, hreads.document, map_cons, ih]

theorem Holds.versions (h : t.Holds rows) (id : String) : t.versions id = (t.liveRows rows id).map (·.source) :=
  filterMap_document (h.lookupById id)

theorem newestById_eq {first : Record} {records : List Record} {older : List FullRecord} (hfirst : first.Reads row)
    (hid : row.id = id) (hrecords : List.Forall₂ Record.Reads records older)
    (hold : ∀ r ∈ older, r.id = id ∧ r.seqNo < row.seqNo) :
    newestById (first :: records) = (AList.insert id first ∅, []) := by
  unfold newestById
  rw [foldl_cons]
  simp only [hfirst.id, hid, AList.lookup_empty]
  induction hrecords with
  | nil => rfl
  | @cons record r records older hreads _ ih =>
    obtain ⟨hsame, hlt⟩ := hold r mem_cons_self
    have hnotNewer : lookupRecordIsNewer record first = false := by
      simp only [lookupRecordIsNewer, hreads.seqNo, hfirst.seqNo, Option.getD_some]
      rw [if_pos (by omega)]
      simp only [decide_eq_false_iff_not]
      omega
    rw [foldl_cons]
    simp only [hreads.id, hsame, AList.lookup_insert, hnotNewer, Bool.false_eq_true, if_false]
    exact ih fun x hx => hold x (mem_cons_of_mem _ hx)

/-- Looking an id up gives its newest live record. -/
theorem Holds.getExistingDocs (h : t.Holds rows) (id : String) :
    List.Forall₂ Record.Reads (t.getExistingDocs [id]) (t.liveRows rows id).head?.toList := by
  unfold SpeedboatTable.getExistingDocs
  have hlookup := h.lookupById id
  have hplain : ∀ r ∈ t.liveRows rows id, r.Plain ∧ r.id = id := fun r => h.live_plain
  have hdescending : (t.liveRows rows id).Pairwise fun row older => older.seqNo < row.seqNo :=
    h.descending.sublist filter_sublist
  generalize t.lookupById [id] = records at hlookup ⊢
  generalize t.liveRows rows id = live at hlookup hplain hdescending ⊢
  cases hlookup with
  | nil => exact .nil
  | @cons first row records older hfirst hrest =>
    obtain ⟨hnewer, -⟩ := pairwise_cons.mp hdescending
    have hnewest := newestById_eq hfirst (hplain row mem_cons_self).2 hrest fun r hr =>
      ⟨(hplain r (mem_cons_of_mem _ hr)).2, hnewer r hr⟩
    rw [dedupeLookupDocs, hnewest]
    simp only [foldl_cons, foldl_nil, AList.lookup_insert, Dict.values_erase_single]
    exact .cons hfirst .nil

theorem Holds.visible (h : t.Holds rows) (id : String) : t.visible id = (t.versions id).head? := by
  have hdocs := h.getExistingDocs id
  rw [SpeedboatTable.visible, h.versions, head?_map]
  cases hlive : (t.liveRows rows id).head? with
  | none =>
    rw [hlive] at hdocs
    rw [forall₂_nil_right_iff.mp hdocs]
    rfl
  | some row =>
    rw [hlive] at hdocs
    obtain ⟨first, _, hfirst, -, hrecords⟩ := forall₂_cons_right_iff.mp hdocs
    rw [hrecords]
    exact hfirst.document

/-- Of the live records of an id the one with the greatest number is shown. -/
theorem Holds.visible_iff (h : t.Holds rows) (id : String) (doc : Value) : t.visible id = some doc ↔
    ∃ row ∈ t.liveRows rows id, row.source = doc ∧ ∀ other ∈ t.liveRows rows id, other.seqNo ≤ row.seqNo := by
  have hdescending : (t.liveRows rows id).Pairwise fun row older => older.seqNo < row.seqNo :=
    h.descending.sublist filter_sublist
  rw [h.visible, h.versions, head?_map]
  cases hlive : t.liveRows rows id with
  | nil => simp
  | cons newest older =>
    rw [hlive] at hdescending
    obtain ⟨hnewer, -⟩ := pairwise_cons.mp hdescending
    rw [head?_cons, Option.map_some, Option.some.injEq]
    constructor
    · rintro rfl
      refine ⟨newest, mem_cons_self, rfl, forall_mem_cons.mpr ⟨Nat.le_refl _, fun other hother => ?_⟩⟩
      exact (hnewer other hother).le
    · rintro ⟨row, hrow, rfl, hgreatest⟩
      have hle := hgreatest newest mem_cons_self
      rcases mem_cons.mp hrow with rfl | hrow
      · rfl
      · exact absurd (hnewer row hrow) hle.not_gt

theorem Holds.length_lookupById (h : t.Holds rows) (id : String) :
    (t.lookupById [id]).length = (t.versions id).length := by
  rw [h.versions, length_map, (h.lookupById id).length_eq]

theorem Holds.existingDoc (h : t.Holds rows) (id : String) : existingDoc t id = .ok (t.liveRows rows id).head? := by
  have hdocs := h.getExistingDocs id
  rw [PowdrrEngine.existingDoc]
  cases hlive : (t.liveRows rows id).head? with
  | none =>
    rw [hlive] at hdocs
    rw [forall₂_nil_right_iff.mp hdocs]
  | some row =>
    rw [hlive] at hdocs
    obtain ⟨first, _, hfirst, -, hrecords⟩ := forall₂_cons_right_iff.mp hdocs
    rw [hrecords]
    simp only [hfirst.fromRecord]

/-! ### Commits -/

variable {b : SpeedboatCommitBuilder} {t' : SpeedboatTable}

/-- A builder of new records with plain documents, whose deletes name rows of the table. -/
structure Commits (t : SpeedboatTable) (b : SpeedboatCommitBuilder) : Prop where
  unwritten : b.Unwritten
  plain : ∀ r ∈ b.records, r.source.isObject = true ∧ r.source.unreserved = true
  counted : ∀ r ∈ b.records, r.version ≤ t.lastSeqNo + 1
  deletes : ∀ d ∈ b.deleteRecords, d.seqNo ≤ t.lastSeqNo

theorem commit_eq_none (t : SpeedboatTable) (hb : b.Unwritten)
    (h : ∃ r ∈ b.records, r.source.isObject = false) : t.commit b = none := by
  rw [SpeedboatTable.commit, hb.buildBuffers_eq_none h]
  rfl

theorem Commits.isSome_commit (hb : t.Commits b) (hroom : t.lastSeqNo + b.changes < 2 ^ 63) :
    (t.commit b).isSome = true ↔ SameTypes (b.records.map (·.source)) := by
  rw [SpeedboatTable.commit, Option.isSome_map]
  refine hb.unwritten.isSome_buildBuffers hb.plain (fun r hr => ?_) hroom
  have hone := (length_pos_of_mem hr).trans_le length_records_le
  have hle := hb.counted r hr
  omega

theorem Holds.commit (h : t.Holds rows) (hb : t.Commits b) (hcommit : t.commit b = some t') :
    t'.Holds (b.rows t.lastSeqNo ++ rows) ∧ t'.deleted = b.deleteRecords.map (·.asValue) ++ t.deleted ∧
      t'.lastSeqNo = t.lastSeqNo + b.changes := by
  obtain ⟨built, hbuilt, rfl⟩ := Option.map_eq_some_iff.mp hcommit
  have hspec := buildBuffers_spec hbuilt
  rw [hspec.deletes, hspec.lastSeqNo]
  refine ⟨⟨?_, ?_, ?_, ?_, ?_, ?_⟩, rfl, rfl⟩
  · exact rel_append (hspec.reads hb.unwritten fun r hr => (hb.plain r hr).2) h.records
  · intro row hrow
    rcases mem_append.mp hrow with hrow | hrow
    · obtain ⟨p, hp, rfl⟩ := mem_map.mp hrow
      exact hb.plain p.1 (of_mem_numbered hp).1
    · exact h.plain row hrow
  · refine pairwise_append.mpr ⟨b.rows_descending _, h.descending, fun row hrow older holder => ?_⟩
    exact lt_of_le_of_lt (h.bounded older holder) (seqNo_of_mem_rows hrow).1
  · intro row hrow
    rcases mem_append.mp hrow with hrow | hrow
    · exact (seqNo_of_mem_rows hrow).2
    · exact le_trans (h.bounded row hrow) (le_add_right _ _)
  · intro row hrow
    rcases mem_append.mp hrow with hrow | hrow
    · obtain ⟨p, hp, rfl⟩ := mem_map.mp hrow
      obtain ⟨hr, hlt, -⟩ := of_mem_numbered hp
      exact (hb.counted p.1 hr).trans hlt
    · exact h.counted row hrow
  intro key hkey
  rcases mem_append.mp hkey with hkey | hkey
  · obtain ⟨d, hd, rfl⟩ := mem_map.mp hkey
    exact ⟨d.id, d.seqNo, rfl, le_trans (hb.deletes d hd) (le_add_right _ _)⟩
  · obtain ⟨id, n, hkey, hn⟩ := h.deleted key hkey
    exact ⟨id, n, hkey, le_trans hn (le_add_right _ _)⟩

theorem Holds.versions_commit (h : t.Holds rows) (hb : t.Commits b)
    (hcommit : t.commit b = some t') (id : String) :
    t'.versions id = (b.records.filter fun r => r.id = id).map (·.source) ++
      ((t.liveRows rows id).filter fun row => row.key ∉ b.deleteRecords.map (·.asValue)).map (·.source) := by
  obtain ⟨hholds, hdeleted, -⟩ := h.commit hb hcommit
  rw [hholds.versions, liveRows, filter_append, map_append, ← b.sources_rows t.lastSeqNo, hdeleted]
  congr 2
  · refine filter_congr fun row hrow => ?_
    -- A number drawn by the commit is in no delete.
    have hnew := (seqNo_of_mem_rows hrow).1
    have hlive : row.key ∉ b.deleteRecords.map (·.asValue) ++ t.deleted := by
      intro hmem
      rcases mem_append.mp hmem with hmem | hmem
      · obtain ⟨d, hd, hkey⟩ := mem_map.mp hmem
        have hle := hb.deletes d hd
        rw [(idSeqNo_inj hkey).2] at hle
        omega
      · obtain ⟨id', n, hkey, hn⟩ := h.deleted _ hmem
        rw [← (idSeqNo_inj hkey).2] at hn
        omega
    simp [hlive]
  · rw [liveRows, filter_filter]
    refine filter_congr fun row _ => ?_
    rw [Bool.eq_iff_iff, Bool.and_eq_true, decide_eq_true_iff, decide_eq_true_iff, decide_eq_true_iff, mem_append]
    tauto

end SpeedboatTable

end PowdrrEngine
