import PowdrrEngine.ServingExactIndex

/-! What the lookup through the exact index returns. A document is counted once for every indexed column
whose text some predicate asks for, so the count is the number of predicates only where the predicates
are on different columns, every one of them is indexed, and the text of the row's value is that of a
literal. Rows for which this fails are not found, although SQL selects them. -/

namespace PowdrrEngine

open List
open Option (getD_some any_eq_true)

variable {filters : List ReadPredicate}

/-- A store of data files with their columns. The document ids are strings and differ within a file. -/
structure IndexedStore extends ServingStore where
  columns : String → List (String × ArrowType)
  columns_nodup : ∀ path, ((columns path).map Prod.fst).Nodup
  docId : ∀ path, ∀ row ∈ rows path, ∃ id, row.lookup docIdField = some (.string id)
  docId_nodup : ∀ path, ((rows path).map fun row => row.lookup docIdField).Nodup

section

variable (castText : Value → String) (numberText : Number → String)

def askedFor (predicates : List ExactLookupPredicate) (row : ServingRow) (field : String) : Bool :=
  (exactIndexEntry castText field row).any fun entry =>
    predicates.any fun predicate => predicate.asksFor numberText entry

/-- The index finds a row: the predicates are on different columns, all of them indexed, and the text of
the row's value in each is that of a literal of the predicate. -/
def indexFinds (fields : List String) (predicates : List ExactLookupPredicate) (row : ServingRow) : Prop :=
  (predicates.map (·.field)).Nodup ∧ ∀ predicate ∈ predicates, predicate.field ∈ fields ∧
    (exactIndexEntry castText predicate.field row).any (predicate.asksFor numberText) = true

instance (fields : List String) (predicates : List ExactLookupPredicate) :
    DecidablePred (indexFinds castText numberText fields predicates) := fun _ =>
  inferInstanceAs (Decidable (_ ∧ _))

end

section

variable {castText : Value → String} {numberText : Number → String} {fields : List String}
  {predicates : List ExactLookupPredicate} {rows : List ServingRow} {row : ServingRow} {field : String}
  {docIds : List String} {request : ReadPlan} {id : String}

/-! ### Counting entries -/

theorem fieldName_of_exactIndexEntry {entry : ExactIndexEntry} (h : exactIndexEntry castText field row = some entry) :
    entry.fieldName = field ∧ entry.docId = (row.lookup docIdField).getD .null := by
  unfold exactIndexEntry at h
  split at h
  · cases h
  · cases h
  · cases h
    exact ⟨rfl, rfl⟩

theorem countP_entries (hdocIds : (rows.map fun row => (row.lookup docIdField).getD .null).Nodup)
    (hrow : row ∈ rows) (field : String) :
    ((rows.filterMap (exactIndexEntry castText field)).filter fun entry =>
        predicates.any fun predicate => predicate.asksFor numberText entry).countP
      (·.docId = (row.lookup docIdField).getD .null) =
      if askedFor castText numberText predicates row field then 1 else 0 := by
  have hcount : ∀ other ∈ rows, (((exactIndexEntry castText field other).map fun entry =>
      decide (entry.docId = (row.lookup docIdField).getD .null) &&
        predicates.any fun predicate => predicate.asksFor numberText entry).getD false = true ↔
      (decide (other = row) && askedFor castText numberText predicates row field) = true) := by
    intro other hother
    cases hentry : exactIndexEntry castText field other with
    | none =>
      have hnone : other = row → askedFor castText numberText predicates row field = false := by
        rintro rfl
        rw [askedFor, hentry]
        rfl
      simpa using hnone
    | some entry =>
      have hdocId := (fieldName_of_exactIndexEntry hentry).2
      have hsame : (other.lookup docIdField).getD .null = (row.lookup docIdField).getD .null ↔ other = row :=
        ⟨fun h => inj_on_of_nodup_map hdocIds hother hrow h, fun h => by rw [h]⟩
      simp only [Option.map_some, getD_some, Bool.and_eq_true, decide_eq_true_iff, hdocId, hsame]
      refine and_congr_right fun heq => ?_
      rw [askedFor, ← heq, hentry, Option.any_some]
  rw [countP_filter, countP_filterMap, countP_congr hcount]
  have hnodup : rows.Nodup := hdocIds.of_map _
  cases askedFor castText numberText predicates row field with
  | true =>
    have hone := count_eq_one_of_mem hnodup hrow
    exact (countP_congr fun other _ => by simp).trans hone
  | false => simp

theorem countP_askedEntries (hdocIds : (rows.map fun row => (row.lookup docIdField).getD .null).Nodup)
    (hrow : row ∈ rows) (fields : List String) :
    (askedEntries numberText predicates
        (fields.flatMap fun field => rows.filterMap (exactIndexEntry castText field))).countP
      (·.docId = (row.lookup docIdField).getD .null) =
      (fields.filter (askedFor castText numberText predicates row)).length := by
  induction fields with
  | nil => rfl
  | cons field fields ih =>
    rw [flatMap_cons, askedEntries, filter_append, countP_append, countP_entries hdocIds hrow,
      ← askedEntries, ih, filter_cons]
    split
    · rw [length_cons, Nat.add_comm]
    · rw [Nat.zero_add]

theorem length_asked_iff (hfields : fields.Nodup) :
    (fields.filter (askedFor castText numberText predicates row)).length = predicates.length ↔
      indexFinds castText numberText fields predicates row := by
  have hnodup : (fields.filter (askedFor castText numberText predicates row)).Nodup := hfields.filter _
  have hsubset : fields.filter (askedFor castText numberText predicates row) ⊆ predicates.map (·.field) := by
    intro field hfield
    obtain ⟨entry, hentry, hasked⟩ := any_eq_true _ _ |>.mp (mem_filter.mp hfield).2
    obtain ⟨predicate, hpredicate, hasks⟩ := any_eq_true.mp hasked
    have hname := of_decide_eq_true (Bool.and_eq_true_iff.mp hasks).1
    rw [(fieldName_of_exactIndexEntry hentry).1] at hname
    exact mem_map.mpr ⟨predicate, hpredicate, hname.symm⟩
  constructor
  · intro hlength
    -- as many columns as predicates leave no room for two predicates on one column
    have hperm : (fields.filter (askedFor castText numberText predicates row)).Perm (predicates.map (·.field)) :=
      (subperm_of_subset hnodup hsubset).perm_of_length_le (by rw [length_map, hlength])
    have hdistinct : (predicates.map (·.field)).Nodup := hperm.nodup_iff.mp hnodup
    refine ⟨hdistinct, fun predicate hpredicate => ?_⟩
    have hmem := hperm.mem_iff.mpr (mem_map_of_mem hpredicate)
    obtain ⟨hfield, hasked⟩ := mem_filter.mp hmem
    obtain ⟨entry, hentry, hany⟩ := any_eq_true _ _ |>.mp hasked
    obtain ⟨other, hother, hasks⟩ := any_eq_true.mp hany
    have hname := of_decide_eq_true (Bool.and_eq_true_iff.mp hasks).1
    rw [(fieldName_of_exactIndexEntry hentry).1] at hname
    obtain rfl := inj_on_of_nodup_map hdistinct hpredicate hother hname
    exact ⟨hfield, (any_eq_true _ _).mpr ⟨entry, hentry, hasks⟩⟩
  · rintro ⟨hdistinct, hfinds⟩
    have hsuperset : predicates.map (·.field) ⊆ fields.filter (askedFor castText numberText predicates row) := by
      intro field hfield
      obtain ⟨predicate, hpredicate, rfl⟩ := mem_map.mp hfield
      obtain ⟨hmem, hany⟩ := hfinds predicate hpredicate
      obtain ⟨entry, hentry, hasks⟩ := any_eq_true _ _ |>.mp hany
      exact mem_filter.mpr ⟨hmem, (any_eq_true _ _).mpr
        ⟨entry, hentry, any_eq_true.mpr ⟨predicate, hpredicate, hasks⟩⟩⟩
    have hperm := (perm_ext_iff_of_nodup hnodup hdistinct).mpr fun field => ⟨fun h => hsubset h, fun h => hsuperset h⟩
    rw [hperm.length_eq, length_map]

/-! ### Document ids -/

theorem mem_exactLookupGroups_iff (hpredicates : predicates ≠ [])
    (hdocIds : (rows.map fun row => (row.lookup docIdField).getD .null).Nodup) (hfields : fields.Nodup)
    {docId : Value} :
    docId ∈ exactLookupGroups numberText predicates
        (fields.flatMap fun field => rows.filterMap (exactIndexEntry castText field)) ↔
      ∃ row ∈ rows, (row.lookup docIdField).getD .null = docId ∧
        indexFinds castText numberText fields predicates row := by
  rw [exactLookupGroups, mem_filter, mem_dedup, decide_eq_true_iff]
  constructor
  · rintro ⟨hmem, hcount⟩
    obtain ⟨entry, hentry, rfl⟩ := mem_map.mp hmem
    obtain ⟨field, -, hfield⟩ := mem_flatMap.mp (mem_of_mem_filter hentry)
    obtain ⟨row, hrow, hof⟩ := mem_filterMap.mp hfield
    have hdocId := (fieldName_of_exactIndexEntry hof).2
    rw [hdocId, countP_askedEntries hdocIds hrow, length_asked_iff hfields] at hcount
    exact ⟨row, hrow, hdocId.symm, hcount⟩
  rintro ⟨row, hrow, rfl, hfinds⟩
  have hcount := (countP_askedEntries hdocIds hrow fields).trans ((length_asked_iff hfields).mpr hfinds)
  refine ⟨?_, hcount⟩
  have hpos : 0 < predicates.length := length_pos_iff.mpr hpredicates
  rw [← hcount, countP_pos_iff] at hpos
  obtain ⟨entry, hentry, hdocId⟩ := hpos
  exact mem_map.mpr ⟨entry, hentry, of_decide_eq_true hdocId⟩

theorem mem_docIds_iff {entries : List ExactIndexEntry}
    (h : IsExactLookupDocIds numberText predicates entries docIds) (hfits : docIds.length ≤ maxExactLookupDocIds)
    (hstrings : ∀ docId ∈ exactLookupGroups numberText predicates entries, ∃ id, docId = .string id) :
    id ∈ docIds ↔ .string id ∈ exactLookupGroups numberText predicates entries := by
  obtain ⟨groups, hperm, hmapM⟩ := h
  have hgroups : ∀ docId ∈ groups, ∃ id, docId = .string id := fun docId hdocId =>
    hstrings docId (hperm.mem_iff.mp hdocId)
  have hfilter : (groups.take (maxExactLookupDocIds + 1)).filter (· ≠ .null) =
      groups.take (maxExactLookupDocIds + 1) := by
    refine filter_eq_self.mpr fun docId hdocId => ?_
    obtain ⟨id, rfl⟩ := hgroups docId (mem_of_mem_take hdocId)
    exact decide_eq_true Value.noConfusion
  rw [hfilter] at hmapM
  have hforall := Lists.forall₂_of_mapM hmapM
  have htake : groups.take (maxExactLookupDocIds + 1) = groups := by
    have hlength := hforall.length_eq
    rw [length_take] at hlength
    exact take_of_length_le (by omega)
  rw [htake] at hforall
  rw [← hperm.mem_iff]
  constructor
  · intro hid
    obtain ⟨docId, hdocId, hnormalized⟩ := Lists.exists_mem_of_forall₂ hforall hid
    obtain ⟨other, rfl⟩ := hgroups docId hdocId
    obtain rfl : other = id := Option.some.inj hnormalized
    exact hdocId
  · intro hid
    obtain ⟨other, hother, hnormalized⟩ := Lists.exists_mem_of_forall₂ hforall.flip hid
    obtain rfl : id = other := Option.some.inj hnormalized
    exact hother

/-! ### The rows of a file -/

theorem holds_exactLookupRequest (hid : row.lookup docIdField = some (.string id)) :
    (exactLookupRequest request docIds).holds sqlCompare row = (request.holds sqlCompare row && decide (id ∈ docIds)) := by
  have hdocIds : ReadPredicate.holds { field := "_id_seq_no", inValues := some (docIds.map .string) } sqlCompare row =
      decide (id ∈ docIds) := by
    have hlookup : row.lookup "_id_seq_no" = some (.string id) := hid
    rw [Bool.eq_iff_iff, decide_eq_true_iff, ReadPredicate.holds_of_lookup sqlCompare hlookup Value.noConfusion]
    simp [ReadPredicate.accepts, sqlCompare]
  rw [ReadPlan.holds, exactLookupRequest, all_append, ← ReadPlan.holds]
  rw [all_cons, all_nil, Bool.and_true, hdocIds]

theorem isScanResult_part_iff {limit : Nat} {finds : ServingRow → Bool} (horder : request.orderBy = [])
    {selected : List ServingRow}
    (hselected : selected.Perm ((rows.filter (request.holds sqlCompare)).filter finds)) :
    IsScanResult request limit rows ((selected.take limit).map (projectedRowValue request.select)) ↔
      limit ≤ ((rows.filter (request.holds sqlCompare)).filter finds).length ∨
        ∀ row ∈ rows.filter (request.holds sqlCompare), finds row = true := by
  have hany : ∀ l : List ServingRow, l.Pairwise fun left right => sqlRowOrder request.orderBy left right ≠ .gt := by
    intro l
    rw [horder]
    exact pairwise_of_forall fun _ _ => Ordering.noConfusion
  constructor
  · intro hscan
    have hlength := hscan.length_eq
    rw [length_map, length_take, hselected.length_eq] at hlength
    by_cases hfull : limit ≤ ((rows.filter (request.holds sqlCompare)).filter finds).length
    · exact Or.inl hfull
    · have hall : ((rows.filter (request.holds sqlCompare)).filter finds).length =
          (rows.filter (request.holds sqlCompare)).length := by omega
      exact Or.inr (length_filter_eq_length_iff.mp hall)
  rintro (hfull | hall)
  · refine ⟨selected ++ (rows.filter (request.holds sqlCompare)).filter fun row => !finds row, ?_, hany _, ?_⟩
    · exact (hselected.append_right _).trans (filter_append_perm _ _)
    · rw [take_append_of_le_length (hselected.length_eq ▸ hfull)]
  · rw [filter_eq_self.mpr hall] at hselected
    exact ⟨selected, hselected, hany _, rfl⟩

end

/-! ### The lookup -/

section

variable (castText : Value → String) (numberText : Number → String) (store : IndexedStore) (deleteFiles : List String)
  {exactIndex : ExtensionFile} {docIds : List String} {rows : List ServingRow}

def IndexedStore.selected (request : ReadPlan) (file : FileDescriptor) : List ServingRow :=
  (store.fullScan deleteFiles [file]).filter (request.holds sqlCompare)

/-- Nothing that counts is lost for a file: the index finds every row that the plan selects, or as many
of them as the plan may return. -/
def IndexedStore.NothingLost (request : ReadPlan) (predicates : List ExactLookupPredicate) (limit : Nat)
    (file : FileDescriptor) : Prop :=
  limit ≤ ((store.selected deleteFiles request file).filter fun row =>
      decide (indexFinds castText numberText (exactFields (store.columns file.filePath)) predicates row)).length ∨
    ∀ row ∈ store.selected deleteFiles request file,
      indexFinds castText numberText (exactFields (store.columns file.filePath)) predicates row

/-- The index of a file was written by the index writer, the ids are read from it by the SQL of the
lookup, and the plan's SQL is run on the file. -/
structure ExactLookupRuns (loadExactLookupDocIds : String → List ExactLookupPredicate → Except String (List String))
    (execute : FileDescriptor → ReadPlan → Except String (List ServingRow)) (extensionFiles : ExtensionFileMetadata)
    (files : List FileDescriptor) (limit : Nat) : Prop where
  docIds : ∀ file ∈ files, ∀ exactIndex ∈ exactIndexOf extensionFiles file, ∀ predicates docIds,
    loadExactLookupDocIds exactIndex.location predicates = .ok docIds →
      ∃ entries, createExactIndexWorker castText (store.columns file.filePath) (store.rows file.filePath) =
        some entries ∧ IsExactLookupDocIds numberText predicates entries docIds
  execute : ∀ file ∈ files, ∀ request : ReadPlan, request.orderBy = [] → ∀ rows, execute file request = .ok rows →
    IsScanResult request limit (store.fullScan deleteFiles [file]) rows

variable {castText numberText store deleteFiles} {text : Value → String}
  {loadExactLookupDocIds : String → List ExactLookupPredicate → Except String (List String)}
  {execute : FileDescriptor → ReadPlan → Except String (List ServingRow)} {extensionFiles : ExtensionFileMetadata}
  {files : List FileDescriptor} {limit : Nat} {request : ReadPlan} {predicates : List ExactLookupPredicate}
  {file : FileDescriptor}

theorem exactFields_nodup (store : IndexedStore) (path : String) : (exactFields (store.columns path)).Nodup :=
  (store.columns_nodup path).sublist (filter_sublist.map _)

theorem docIds_nodup (store : IndexedStore) (path : String) :
    ((store.rows path).map fun row => (row.lookup docIdField).getD .null).Nodup := by
  have hsome : ((store.rows path).map fun row => row.lookup docIdField) =
      ((store.rows path).map fun row => (row.lookup docIdField).getD .null).map some := by
    rw [map_map]
    refine map_congr_left fun row hrow => ?_
    obtain ⟨id, hid⟩ := store.docId path row hrow
    rw [Function.comp_apply, hid, getD_some]
  exact (hsome ▸ store.docId_nodup path).of_map some

section

variable
  (h : ExactLookupRuns castText numberText store deleteFiles loadExactLookupDocIds execute extensionFiles files limit)
  (hfile : file ∈ files) (hpredicates : predicates ≠ [])

include h hfile hpredicates

section

variable (hindex : exactIndexOf extensionFiles file = some exactIndex)
  (hdocIds : loadExactLookupDocIds exactIndex.location predicates = .ok docIds)
  (hfits : docIds.length ≤ maxExactLookupDocIds)

include hindex hdocIds hfits

theorem ExactLookupRuns.mem_docIds {row : ServingRow} (hrow : row ∈ store.rows file.filePath) {id : String}
    (hid : row.lookup docIdField = some (.string id)) :
    id ∈ docIds ↔ indexFinds castText numberText (exactFields (store.columns file.filePath)) predicates row := by
  obtain ⟨entries, hentries, hids⟩ := h.docIds file hfile exactIndex hindex predicates docIds hdocIds
  unfold createExactIndexWorker at hentries
  split at hentries
  · cases hentries
  cases hentries
  have hgroups : ∀ docId : Value, docId ∈ exactLookupGroups numberText predicates _ ↔
      ∃ row ∈ store.rows file.filePath, (row.lookup docIdField).getD .null = docId ∧
        indexFinds castText numberText (exactFields (store.columns file.filePath)) predicates row := fun docId =>
    mem_exactLookupGroups_iff hpredicates (docIds_nodup store file.filePath) (exactFields_nodup store file.filePath)
  rw [mem_docIds_iff hids hfits, hgroups]
  · constructor
    · rintro ⟨other, hother, hsame, hfinds⟩
      have heq : (other.lookup docIdField).getD .null = (row.lookup docIdField).getD .null := by
        rw [hsame, hid, getD_some]
      rwa [← inj_on_of_nodup_map (docIds_nodup store file.filePath) hother hrow heq]
    · exact fun hfinds => ⟨row, hrow, by rw [hid, getD_some], hfinds⟩
  · intro docId hdocId
    obtain ⟨other, hother, rfl, -⟩ := (hgroups docId).mp hdocId
    obtain ⟨otherId, hother⟩ := store.docId file.filePath other hother
    exact ⟨otherId, by rw [hother, getD_some]⟩

theorem ExactLookupRuns.filter_holds (request : ReadPlan) :
    (store.fullScan deleteFiles [file]).filter ((exactLookupRequest request docIds).holds sqlCompare) =
      (store.selected deleteFiles request file).filter fun row =>
        decide (indexFinds castText numberText (exactFields (store.columns file.filePath)) predicates row) := by
  rw [IndexedStore.selected, filter_filter]
  refine filter_congr fun row hrow => ?_
  have hmem : row ∈ store.rows file.filePath := by
    obtain ⟨other, hother, hrow⟩ := mem_flatMap.mp hrow
    rw [← mem_singleton.mp hother]
    exact mem_of_mem_filter hrow
  obtain ⟨id, hid⟩ := store.docId file.filePath row hmem
  rw [holds_exactLookupRequest hid, Bool.and_comm,
    decide_eq_decide.mpr (h.mem_docIds hfile hpredicates hindex hdocIds hfits hmem hid)]

end

end

/-- What the loop gets for a file: the answer of the SQL on the document ids that the file's index returns,
and nothing where the index returns none. -/
def LookedUp (loadExactLookupDocIds : String → List ExactLookupPredicate → Except String (List String))
    (execute : FileDescriptor → ReadPlan → Except String (List ServingRow)) (extensionFiles : ExtensionFileMetadata)
    (predicates : List ExactLookupPredicate) (request : ReadPlan) (file : FileDescriptor)
    (answer : List ServingRow) : Prop :=
  ∃ exactIndex docIds, exactIndexOf extensionFiles file = some exactIndex ∧
    loadExactLookupDocIds exactIndex.location predicates = .ok docIds ∧
    if docIds = [] then answer = [] else executeExactLookupFile execute request file docIds = .ok answer

theorem ExactLookupRuns.exactLookupLoop_spec
    (h : ExactLookupRuns castText numberText store deleteFiles loadExactLookupDocIds execute extensionFiles files limit)
    (hpredicates : predicates ≠ []) (horder : request.orderBy = []) {rest : List FileDescriptor}
    (hrest : ∀ file ∈ rest, file ∈ files) {result final : ServingExecutionResult}
    (hrows : result.rows.length ≤ max (limit * 4) limit)
    (hloop : exactLookupLoop text loadExactLookupDocIds execute extensionFiles predicates request limit rest result =
      .ok (some final)) :
    ∃ answers, final.rows = answers.foldl (fun rows newRows => mergeRows text rows newRows request limit) result.rows ∧
      List.Forall₂ (fun file answer =>
        LookedUp loadExactLookupDocIds execute extensionFiles predicates request file answer ∧
        (IsScanResult request limit (store.fullScan deleteFiles [file]) answer ↔
          store.NothingLost castText numberText deleteFiles request predicates limit file)) rest answers := by
  induction rest generalizing result with
  | nil =>
    cases hloop
    exact ⟨[], rfl, List.Forall₂.nil⟩
  | cons file rest ih =>
    have hfile := hrest file mem_cons_self
    have hrest' := fun other hother => hrest other (mem_cons_of_mem file hother)
    rw [exactLookupLoop] at hloop
    split at hloop
    · cases hloop
    rename_i exactIndex hindex
    obtain ⟨docIds, hdocIds, hloop⟩ := Run.exists_ok_of_bind hloop
    split at hloop
    · cases hloop
    rename_i hfits
    -- the answer of a file is one of the plan's SQL exactly where nothing is lost
    have hiff : ∀ answer,
        IsScanResult (exactLookupRequest request docIds) limit (store.fullScan deleteFiles [file]) answer →
        (IsScanResult request limit (store.fullScan deleteFiles [file]) answer ↔
          store.NothingLost castText numberText deleteFiles request predicates limit file) := by
      rintro _ ⟨selected, hperm, -, rfl⟩
      rw [h.filter_holds hfile hpredicates hindex hdocIds (not_lt.mp hfits)] at hperm
      refine (isScanResult_part_iff horder hperm).trans (or_congr_right ?_)
      exact forall₂_congr fun row hrow => decide_eq_true_iff
    split at hloop
    · rename_i hnil
      obtain ⟨answers, hmerged, hanswers⟩ := ih hrest' hrows hloop
      have hlooked : LookedUp loadExactLookupDocIds execute extensionFiles predicates request file [] :=
        ⟨exactIndex, docIds, hindex, hdocIds, by rw [if_pos hnil]⟩
      refine ⟨[] :: answers, ?_, List.Forall₂.cons ⟨hlooked, hiff [] ?_⟩ hanswers⟩
      · rw [foldl_cons, mergeRows, horder, append_nil]
        dsimp only [head?_nil]
        rw [take_of_length_le hrows]
        exact hmerged
      rw [hnil]
      have hnone : (store.fullScan deleteFiles [file]).filter ((exactLookupRequest request []).holds sqlCompare) = [] := by
        refine filter_eq_nil_iff.mpr fun row hrow => ?_
        obtain ⟨other, hother, hrow⟩ := mem_flatMap.mp hrow
        rw [mem_singleton.mp hother] at hrow
        obtain ⟨id, hid⟩ := store.docId file.filePath row (mem_of_mem_filter hrow)
        simp [holds_exactLookupRequest hid]
      exact ⟨[], by rw [hnone], List.Pairwise.nil, by rw [take_nil, map_nil]⟩
    · rename_i hne
      obtain ⟨newRows, hexecute, hloop⟩ := Run.exists_ok_of_bind hloop
      have hlooked : LookedUp loadExactLookupDocIds execute extensionFiles predicates request file newRows :=
        ⟨exactIndex, docIds, hindex, hdocIds, by rw [if_neg hne]; exact hexecute⟩
      have hmergedRows : (mergeRows text result.rows newRows request limit).length ≤ max (limit * 4) limit := by
        rw [mergeRows, horder]
        exact length_take_le _ _
      obtain ⟨answers, hmerged, hanswers⟩ := ih hrest' hmergedRows hloop
      have hanswer := hiff newRows (h.execute file hfile (exactLookupRequest request docIds) horder newRows hexecute)
      exact ⟨newRows :: answers, hmerged, List.Forall₂.cons ⟨hlooked, hanswer⟩ hanswers⟩

end

/-! ### A file of two documents -/

def documentRow (docId name : String) (count : Nat) : ServingRow :=
  Dict.insertAll ∅ [("_id_seq_no", .string docId), ("name", .string name), ("count", .number (.posInt count))]

def documentFile : FileDescriptor := ⟨"documents", ⟨[]⟩, 1⟩

def documentStore : IndexedStore where
  rows path := if path = "documents" then [documentRow "d1" "left" 1, documentRow "d2" "right" 1] else []
  deletedKeys _ := []
  columns _ := [("_id_seq_no", .utf8), ("name", .utf8), ("count", .int64)]
  columns_nodup _ := by decide +kernel
  docId path row hrow := by
    by_cases hpath : path = "documents"
    · rw [if_pos hpath, List.mem_pair] at hrow
      rcases hrow with rfl | rfl
      · exact ⟨"d1", rfl⟩
      · exact ⟨"d2", rfl⟩
    · rw [if_neg hpath] at hrow
      cases hrow
  docId_nodup path := by
    by_cases hpath : path = "documents"
    · rw [if_pos hpath]
      decide +kernel
    · rw [if_neg hpath]
      exact List.nodup_nil

def countText (n : Number) : String := toString (n.asInt.getD 0)

def plainText : Value → String
  | .string text => text
  | .number n => countText n
  | .bool b => toString b
  | _ => ""

def documentEntries : List ExactIndexEntry :=
  (createExactIndexWorker plainText (documentStore.columns "documents") (documentStore.rows "documents")).getD []

/-- The lookup's SQL with its groups in the order of the index. -/
def loadDocumentIds (_ : String) (predicates : List ExactLookupPredicate) : Except String (List String) :=
  match (((exactLookupGroups countText predicates documentEntries).take (maxExactLookupDocIds + 1)).filter
      (· ≠ .null)).mapM (normalizeExactLookupValue countText) with
  | some docIds => .ok docIds
  | none => .error "Field doc_id could not be normalized"

def executeDocuments (file : FileDescriptor) (request : ReadPlan) : Except String (List ServingRow) :=
  .ok ((((documentStore.fullScan [] [file]).filter (request.holds sqlCompare)).take 10).map
    (projectedRowValue request.select))

def documentExtensions : ExtensionFileMetadata :=
  AList.singleton "documents" [⟨"exact_index", "documents_exact_index.parquet"⟩]

def lookupDocuments (filters : List ReadPredicate) : Except String (Option ServingExecutionResult) :=
  maybeExecuteExactLookup plainText loadDocumentIds executeDocuments [documentFile] [] documentExtensions
    { filters } 10

theorem documentRuns : ExactLookupRuns plainText countText documentStore [] loadDocumentIds executeDocuments
    documentExtensions [documentFile] 10 where
  docIds file hfile exactIndex _ predicates docIds hload := by
    rw [mem_singleton.mp hfile]
    refine ⟨documentEntries, rfl, exactLookupGroups countText predicates documentEntries, List.Perm.refl _, ?_⟩
    unfold loadDocumentIds at hload
    split at hload
    · rename_i found hfound
      cases hload
      exact hfound
    · cases hload
  execute file _ request horder rows hexecute := by
    cases hexecute
    refine ⟨_, List.Perm.refl _, ?_, rfl⟩
    rw [horder]
    exact pairwise_of_forall fun _ _ => Ordering.noConfusion

def leftFilters : List ReadPredicate :=
  [{ field := "name", eq := some (.string "left") },
    { field := "count", inValues := some [.number (.posInt 1), .number (.posInt 2)] }]

/-- Filters that are accepted and return nothing, where every answer of their SQL has a row. -/
def LosesDocument (filters : List ReadPredicate) : Prop :=
  ∃ result, lookupDocuments filters = .ok (some result) ∧ result.rows = [] ∧
    ∀ answer, IsScanResult { filters } 10 (documentStore.fullScan [] [documentFile]) answer → answer.length = 1

theorem losesDocument
    (hlookup : ∃ found, lookupDocuments filters = .ok found ∧ ∃ result, found = some result ∧ result.rows = [])
    (hselected : ((documentStore.fullScan [] [documentFile]).filter
      (ReadPlan.holds { filters } sqlCompare)).length = 1) : LosesDocument filters := by
  obtain ⟨_, hresult, result, rfl, hrows⟩ := hlookup
  refine ⟨result, hresult, hrows, fun answer hanswer => ?_⟩
  rw [hanswer.length_eq, hselected]
  rfl

end PowdrrEngine
