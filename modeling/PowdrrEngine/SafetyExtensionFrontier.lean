import PowdrrEngine.SafetyFrontier

/-! The frontier of `"es"` is the newest checkpoint whose files are all covered. The frontier moves
when an extension commit covers a waiting checkpoint, to the greatest id as a text, and when a
checkpoint is added with coverage. So it is the newest one as long as no commit makes a checkpoint
that is covered from the start, and ids grow as texts. -/

namespace PowdrrEngine

open List Function

namespace CoverageRecords

open EphemeralServiceImpl

def IsOf (r : CoverageRecords) (tableName id : String) (c : TableMetadataCheckpoint) : Prop :=
  r.stored (checkpointKey tableName id) = some c ∧ c.tableName = tableName ∧ c.checkpointId = id

/-- What keeps the frontier of `"es"` exact: checkpoints are stored under their own keys, what waits is
stored, a covered checkpoint is no newer than the frontier, and the frontier is covered. -/
structure FrontierExact (r : CoverageRecords) : Prop where
  keyed : ∀ key c, r.stored key = some c → key = checkpointKey c.tableName c.checkpointId
  waiting : ∀ tableName id, id ∈ r.waiting (extensionWorkKey tableName "es") → ∃ c, r.IsOf tableName id c
  newest : ∀ key c, r.stored key = some c → c.validateFullyCoveredForExtension "es" = true →
    ∃ frontier, r.frontier (some "es") c.tableName = some frontier ∧ c.checkpointId ≤ frontier
  frontier : ∀ tableName id, r.frontier (some "es") tableName = some id →
    ∃ c, r.IsOf tableName id c ∧ c.validateFullyCoveredForExtension "es" = true

/-- Checkpoints are only added, and a table's new ones have greater ids than its old ones. -/
structure Grows (r r' : CoverageRecords) : Prop where
  kept : ∀ tableName id, (∃ c, r.IsOf tableName id c) → ∃ c, r'.IsOf tableName id c
  later : ∀ tableName id, (∃ c, r'.IsOf tableName id c) →
    (∃ c, r.IsOf tableName id c) ∨ ∀ id' c', r.IsOf tableName id' c' → id' < id

theorem Grows.refl (r : CoverageRecords) : Grows r r := ⟨fun _ _ h => h, fun _ _ => Or.inl⟩

theorem Grows.trans {r r' r'' : CoverageRecords} (h : Grows r r') (h' : Grows r' r'') : Grows r r'' := by
  refine ⟨fun t id hid => h'.kept t id (h.kept t id hid), fun t id hid => ?_⟩
  rcases h'.later t id hid with hid | hlater
  · exact h.later t id hid
  · right
    intro id' c' hc'
    obtain ⟨c'', hc''⟩ := h.kept t id' ⟨c', hc'⟩
    exact hlater id' c'' hc''

theorem Grows.of_stored_eq {r r' : CoverageRecords} (h : r'.stored = r.stored) : Grows r r' := by
  refine ⟨fun t id hid => ?_, fun t id hid => Or.inl ?_⟩
  · simpa only [IsOf, h] using hid
  · simpa only [IsOf, h] using hid

theorem extensionWorkKey_inj {tableName tableName' : String}
    (h : extensionWorkKey tableName "es" = extensionWorkKey tableName' "es") : tableName = tableName' := by
  have hl := congrArg String.toList h
  simp only [extensionWorkKey, String.toList_append, append_assoc] at hl
  exact String.toList_inj.mp (append_cancel_right hl)

variable {r r' : CoverageRecords}

/-! ### Storing -/

section

variable {tableName id : String} {c : TableMetadataCheckpoint} (hfresh : r.stored (checkpointKey tableName id) = none)

include hfresh

theorem isOf_update_of_isOf {tableName' id' : String} {c' : TableMetadataCheckpoint} (h : r.IsOf tableName' id' c') :
    Function.update r.stored (checkpointKey tableName id) (some c) (checkpointKey tableName' id') = some c' := by
  have hne : checkpointKey tableName' id' ≠ checkpointKey tableName id := by
    intro heq
    have hsome := h.1
    rw [heq, hfresh] at hsome
    cases hsome
  rw [update_of_ne hne]
  exact h.1

variable (hname : c.tableName = tableName) (hid : c.checkpointId = id)
  (hstored : r'.stored = Function.update r.stored (checkpointKey tableName id) (some c))

include hname hid hstored

theorem FrontierExact.store (h : r.FrontierExact) (hwaiting : r'.waiting = r.waiting)
    (hfrontier : c.validateFullyCoveredForExtension "es" = false ∧ r'.frontier (some "es") = r.frontier (some "es") ∨
      c.validateFullyCoveredForExtension "es" = true ∧
        r'.frontier (some "es") = Function.update (r.frontier (some "es")) tableName (some id) ∧
        ∀ id' c', r.IsOf tableName id' c' → id' ≤ id) : r'.FrontierExact := by
  have hold : ∀ {t i d}, r.IsOf t i d → r'.IsOf t i d := fun hd =>
    ⟨by rw [hstored]; exact isOf_update_of_isOf hfresh hd, hd.2⟩
  refine ⟨fun key d hd => ?_, fun t i hi => ?_, fun key d hd hcovered => ?_, fun t i hi => ?_⟩
  · rw [hstored, update_apply] at hd
    split at hd
    · rename_i hkey
      cases hd
      rw [hkey, hname, hid]
    · exact h.keyed key d hd
  · rw [hwaiting] at hi
    obtain ⟨d, hd⟩ := h.waiting t i hi
    exact ⟨d, hold hd⟩
  · rw [hstored, update_apply] at hd
    split at hd
    · cases hd
      rcases hfrontier with ⟨hnot, -⟩ | ⟨-, hmoved, -⟩
      · rw [hnot] at hcovered
        cases hcovered
      · exact ⟨id, by rw [hmoved, hname, update_self], hid.le⟩
    obtain ⟨frontier, hf, hle⟩ := h.newest key d hd hcovered
    rcases hfrontier with ⟨-, hsame⟩ | ⟨-, hmoved, hnewer⟩
    · exact ⟨frontier, by rw [hsame]; exact hf, hle⟩
    by_cases ht : d.tableName = tableName
    · have hkey := h.keyed key d hd
      refine ⟨id, by rw [hmoved, ht, update_self], hnewer d.checkpointId d ?_⟩
      exact ⟨by rw [← ht, ← hkey]; exact hd, ht, rfl⟩
    · exact ⟨frontier, by rw [hmoved, update_of_ne ht]; exact hf, hle⟩
  · rcases hfrontier with ⟨-, hsame⟩ | ⟨hcovered, hmoved, -⟩
    · rw [hsame] at hi
      obtain ⟨d, hd, hcovered⟩ := h.frontier t i hi
      exact ⟨d, hold hd, hcovered⟩
    rw [hmoved, update_apply] at hi
    split at hi
    · rename_i ht
      cases hi
      rw [ht]
      exact ⟨c, ⟨by rw [hstored, update_self], hname, hid⟩, hcovered⟩
    · obtain ⟨d, hd, hcovered⟩ := h.frontier t i hi
      exact ⟨d, hold hd, hcovered⟩

theorem Grows.store (hlater : ∀ id' c', r.IsOf tableName id' c' → id' < id) : Grows r r' := by
  refine ⟨?_, ?_⟩
  · rintro t i ⟨d, hd⟩
    exact ⟨d, by rw [hstored]; exact isOf_update_of_isOf hfresh hd, hd.2⟩
  rintro t i ⟨d, hd, ht, hi⟩
  rw [hstored, update_apply] at hd
  split at hd
  · cases hd
    right
    rw [← ht, hname, ← hi, hid]
    exact hlater
  · exact Or.inl ⟨d, hd, ht, hi⟩

end

theorem FrontierExact.queued (h : r.FrontierExact) {tableName id : String}
    {speedboatFiles icebergFiles : FileSetPayload}
    (hq : r.Queued tableName id speedboatFiles icebergFiles r') (hid : ∃ c, r.IsOf tableName id c) :
    r'.FrontierExact ∧ Grows r r' := by
  cases hq with
  | idle => exact ⟨h, .refl r⟩
  | work hitem =>
    refine ⟨⟨h.keyed, fun t i hi => ?_, h.newest, h.frontier⟩, .of_stored_eq rfl⟩
    simp only [queue, update_apply] at hi
    split at hi
    · rename_i hkey
      rw [extensionWorkKey_inj hkey]
      rcases mem_append.mp hi with hi | hi
      · exact h.waiting tableName i hi
      · rw [mem_singleton.mp hi]
        exact hid
    · exact h.waiting t i hi

/-! ### Covering -/

section

variable {tableName : String} {commit : ExtensionCommit} {ids : List String}

theorem cover_stored_eq_some {key : String} {d : TableMetadataCheckpoint} :
    (r.cover tableName commit ids).stored key = some d ↔ ∃ c, r.stored key = some c ∧
      d = if key ∈ ids.map (checkpointKey tableName) then c.addCoverage commit else c := by
  simp only [cover]
  split
  · rw [Option.map_eq_some_iff]
    exact exists_congr fun c => and_congr_right fun _ => eq_comm
  · constructor
    · intro h
      exact ⟨d, h, rfl⟩
    · rintro ⟨c, hc, rfl⟩
      exact hc

theorem mem_waiting_of_cover {key id : String} (h : id ∈ (r.cover tableName commit ids).waiting key) :
    id ∈ r.waiting key := by
  simp only [cover] at h
  split at h
  · exact mem_of_mem_filter h
  · exact h

theorem isOf_cover {tableName' id : String} :
    (∃ c, (r.cover tableName commit ids).IsOf tableName' id c) ↔ ∃ c, r.IsOf tableName' id c := by
  constructor
  · rintro ⟨d, hd, hname, hid⟩
    obtain ⟨c, hc, rfl⟩ := cover_stored_eq_some.mp hd
    refine ⟨c, hc, ?_, ?_⟩
    · rw [← hname]
      split <;> rfl
    · rw [← hid]
      split <;> rfl
  rintro ⟨c, hc, hname, hid⟩
  refine ⟨_, cover_stored_eq_some.mpr ⟨c, hc, rfl⟩, ?_, ?_⟩
  · rw [← hname]
    split <;> rfl
  · rw [← hid]
    split <;> rfl

/-- Where the frontier of `"es"` goes: to the greater of the old one and the new id. -/
theorem advance_frontier (maxId : String) (hname : r.realName tableName = tableName) :
    ∃ frontier, (r.advance tableName maxId).frontier (some "es") =
        Function.update (r.frontier (some "es")) tableName (some frontier) ∧
      maxId ≤ frontier ∧ (∀ old, r.frontier (some "es") tableName = some old → old ≤ frontier) ∧
      (frontier = maxId ∨ r.frontier (some "es") tableName = some frontier) := by
  have hset : (r.setFrontier (some "es") tableName maxId).frontier (some "es") =
      Function.update (r.frontier (some "es")) tableName (some maxId) := by
    funext t
    simp [setFrontier, update_apply]
  unfold advance
  rw [hname]
  cases hold : r.frontier (some "es") tableName with
  | none => exact ⟨maxId, hset, le_rfl, by simp, Or.inl rfl⟩
  | some old =>
    dsimp only
    by_cases hlt : old < maxId
    · refine ⟨maxId, by rw [if_pos hlt]; exact hset, le_rfl, ?_, Or.inl rfl⟩
      rintro _ ⟨⟩
      exact hlt.le
    · refine ⟨old, ?_, not_lt.mp hlt, ?_, Or.inr rfl⟩
      · rw [if_neg hlt, ← hold, update_eq_self]
      · rintro _ ⟨⟩
        exact le_rfl

theorem FrontierExact.cover_advance {maxId : String} (h : r.FrontierExact)
    (hext : commit.extension = "es") (hname : r.realName tableName = tableName)
    (hids : ids = r.waiting (extensionWorkKey tableName "es"))
    (hmax : maxText (r.completed tableName commit ids) = some maxId)
    (hstored : r'.stored = (r.cover tableName commit ids).stored)
    (hwaiting : r'.waiting = (r.cover tableName commit ids).waiting)
    (hfrontier : r'.frontier = ((r.cover tableName commit ids).advance tableName maxId).frontier) :
    r'.FrontierExact := by
  have hreal : (r.cover tableName commit ids).realName tableName = tableName := hname
  obtain ⟨frontier, hmoved, hmaxLe, hold, hcases⟩ := advance_frontier maxId hreal
  rw [← hfrontier] at hmoved
  have hisOf : ∀ {t i d}, r'.IsOf t i d ↔ (r.cover tableName commit ids).IsOf t i d := by
    simp [IsOf, hstored]
  have hkeep : ∀ {t i c}, r.IsOf t i c → c.validateFullyCoveredForExtension "es" = true →
      ∃ d, r'.IsOf t i d ∧ d.validateFullyCoveredForExtension "es" = true := by
    rintro t i c ⟨hc, ht, hi⟩ hcovered
    refine ⟨_, hisOf.mpr ⟨cover_stored_eq_some.mpr ⟨c, hc, rfl⟩, ?_, ?_⟩, ?_⟩
    · rw [← ht]
      split <;> rfl
    · rw [← hi]
      split <;> rfl
    · split
      · exact c.validateFullyCoveredForExtension_addCoverage commit hcovered
      · exact hcovered
  refine ⟨fun key d hd => ?_, fun t i hi => ?_, fun key d hd hcovered => ?_, fun t i hi => ?_⟩
  · rw [hstored] at hd
    obtain ⟨c, hc, rfl⟩ := cover_stored_eq_some.mp hd
    rw [h.keyed key c hc]
    split <;> rfl
  · rw [hwaiting] at hi
    obtain ⟨c, hc⟩ := isOf_cover.mpr (h.waiting t i (mem_waiting_of_cover hi))
    exact ⟨c, hisOf.mpr hc⟩
  · rw [hstored] at hd
    obtain ⟨c, hc, rfl⟩ := cover_stored_eq_some.mp hd
    by_cases hmem : key ∈ ids.map (checkpointKey tableName)
    · -- a checkpoint that waited is completed now
      rw [if_pos hmem] at hcovered ⊢
      obtain ⟨id, hid, rfl⟩ := mem_map.mp hmem
      obtain ⟨c', hc', ht, hi⟩ := h.waiting tableName id (hids ▸ hid)
      cases hc.symm.trans hc'
      have hcompleted : id ∈ r.completed tableName commit ids := by
        refine mem_filter.mpr ⟨hid, ?_⟩
        rw [hc, Option.any_some, hext]
        exact hcovered
      refine ⟨frontier, ?_, ?_⟩
      · change r'.frontier (some "es") c.tableName = _
        rw [hmoved, ht, update_self]
      · change c.checkpointId ≤ frontier
        rw [hi]
        exact ((maxText_eq_some_iff.mp hmax).2 _ hcompleted).trans hmaxLe
    · rw [if_neg hmem] at hcovered ⊢
      obtain ⟨f, hf, hle⟩ := h.newest key c hc hcovered
      rw [hmoved]
      by_cases ht : c.tableName = tableName
      · rw [ht] at hf ⊢
        exact ⟨frontier, update_self _ _ _, hle.trans (hold f hf)⟩
      · exact ⟨f, by rw [update_of_ne ht]; exact hf, hle⟩
  · rw [hmoved, update_apply] at hi
    split at hi
    · rename_i ht
      cases hi
      rw [ht]
      rcases hcases with rfl | hsame
      · obtain ⟨hid, hany⟩ := mem_filter.mp (maxText_eq_some_iff.mp hmax).1
        obtain ⟨c, hc, hname', hid'⟩ := h.waiting tableName frontier (hids ▸ hid)
        rw [hc, Option.any_some, hext] at hany
        have hmem : checkpointKey tableName frontier ∈ ids.map (checkpointKey tableName) := mem_map_of_mem hid
        refine ⟨c.addCoverage commit, hisOf.mpr ⟨?_, hname', hid'⟩, hany⟩
        exact cover_stored_eq_some.mpr ⟨c, hc, by rw [if_pos hmem]⟩
      · obtain ⟨c, hc, hcovered⟩ := h.frontier tableName frontier hsame
        exact hkeep hc hcovered
    · obtain ⟨c, hc, hcovered⟩ := h.frontier t i hi
      exact hkeep hc hcovered

end

end CoverageRecords

namespace EphemeralServiceImpl

open CoverageRecords

variable {s s' : EphemeralServiceImpl} {latest : TableMetadataCheckpoint} {tableName path : String}
  {speedboatFiles icebergFiles : FileSetPayload} {info : SpeedboatCommitTableInfo}

/-! ### Conditions on a step -/

section

variable (s)

/-- No checkpoint is stored under the key of a new id, and it is greater as a text than every id that
the table has. -/
def isFreshId (tableName id : String) : Bool :=
  (s.getCheckpointSync tableName id).isNone &&
    s.checkpoints.values.all fun c => decide (c.tableName = tableName → c.checkpointId < id)

def latestStored (tableName : String) : Option TableMetadataCheckpoint :=
  (s.getLatestMaterializedCheckpointSync tableName none).bind (s.getCheckpointSync tableName)

/-- A data file whose coverage a commit would take over, from the table's latest checkpoint or from
what recent extension commits have said. -/
def isKnown (tableName path : String) : Bool :=
  ((s.latestStored tableName).any fun c => path ∈ c.extensionMap "es") ||
    (s.recentFileExtensionMetadata.lookup (recentFileKey tableName "es" path)).isSome

/-- Data files that the checkpoint made by a table info is sure to have: those of the info, or for a
delete those of the latest checkpoint. -/
def infoPaths (info : SpeedboatCommitTableInfo) : List String :=
  if info.commitType = "delete" then
    ((s.latestStored info.tableName).map fun c => c.icebergPaths ++ c.speedboatPaths).getD []
  else (info.segmentFiles.map Prod.fst).filter (· ∈ info.files)

/-- The checkpoint made by a table info is not covered from the start. -/
def infoLeavesWork (info : SpeedboatCommitTableInfo) : Bool :=
  s.isFreshId info.tableName s.nextId.1 && (s.infoPaths info).any fun path => !s.isKnown info.tableName path

/-- The step condition. A commit draws a fresh id and brings a file whose coverage is not known; an
extension commit is for `"es"` and names a table; an added checkpoint has a fresh id, and comes with
extension metadata for `"es"` if and only if that covers it. -/
def leavesWork : ServiceCall → Bool
  | .speedboatCommit commit =>
    decide (Run.Along speedboatCommitTableInfo (fun s info => s.infoLeavesWork info = true) s commit.typeFiles)
  | .icebergCommit tableName commit => s.isFreshId tableName s.nextId.1 &&
      commit.metadata.files.filePaths.any fun path => !s.isKnown tableName path
  | .extensionCommit tableName commit =>
    decide (commit.extension = "es" ∧ s.realTableName tableName = tableName)
  | .addCheckpoint metadata => s.isFreshId metadata.tableName metadata.checkpointId &&
      metadata.validateFullyCoveredForExtension "es" == decide ("es" ∈ metadata.extensionMetadata.keys)
  | _ => true

end

theorem isFreshId_spec {id : String} (h : s.isFreshId tableName id = true) :
    s.records.stored (checkpointKey tableName id) = none ∧ ∀ id' c', s.records.IsOf tableName id' c' → id' < id := by
  obtain ⟨hnone, hall⟩ := Bool.and_eq_true_iff.mp h
  refine ⟨Option.isNone_iff_eq_none.mp hnone, ?_⟩
  rintro id' c' ⟨hc', hname, rfl⟩
  exact of_decide_eq_true (all_eq_true.mp hall c' (Dict.mem_values.mpr ⟨_, hc'⟩)) hname

theorem latestStored_of_latestCheckpoint {schema : Option PowdrrSchema}
    (h : s.latestCheckpoint tableName schema = some latest) :
    s.latestStored tableName = some latest ∨ s.latestStored tableName = none ∧ latest.extensionMetadata = ∅ := by
  unfold latestCheckpoint at h
  unfold latestStored
  split at h
  · rename_i id hid
    left
    rw [hid, Option.bind_some, h]
  · rename_i hnone
    right
    obtain ⟨schema, -, rfl⟩ := Option.map_eq_some_iff.mp h
    exact ⟨by rw [hnone, Option.bind_none], rfl⟩

theorem NextCheckpoint.not_covered {pre c : TableMetadataCheckpoint}
    (h : NextCheckpoint s tableName latest pre c speedboatFiles icebergFiles)
    (hpath : path ∈ pre.icebergPaths ++ pre.speedboatPaths) (hknown : s.isKnown tableName path = false) :
    c.validateFullyCoveredForExtension "es" = false := by
  obtain ⟨hlatest, hrecent⟩ := Bool.or_eq_false_iff.mp hknown
  refine Bool.eq_false_iff.mpr fun hcovered => ?_
  simp only [TableMetadataCheckpoint.validateFullyCoveredForExtension, all_eq_true, decide_eq_true_eq] at hcovered
  obtain ⟨extensionMetadata, heq⟩ := h.filled.eq
  have hmem : path ∈ c.extensionMap "es" := hcovered path (by rw [heq]; exact hpath)
  rcases h.filled.known path hmem with hpre | hsome
  · have hbase := h.covered path hpre
    obtain ⟨schema, hschema⟩ := h.base
    rcases latestStored_of_latestCheckpoint hschema with hstored | ⟨-, hempty⟩
    · rw [hstored, Option.any_some] at hlatest
      exact of_decide_eq_false hlatest hbase
    · unfold TableMetadataCheckpoint.extensionMap at hbase
      rw [hempty] at hbase
      exact AList.notMem_empty path hbase
  · rw [h.name, hrecent] at hsome
    cases hsome

theorem mem_committedSpeedboatFiles_of_mem {files : FileSetPayload}
    (h : committedSpeedboatFiles latest info = some files) (hfiles : path ∈ info.files)
    (hsegments : path ∈ info.segmentFiles.map Prod.fst) : path ∈ files.filePaths := by
  unfold committedSpeedboatFiles at h
  split at h
  · obtain ⟨schema, -, rfl⟩ := Option.map_eq_some_iff.mp h
    exact hfiles
  · obtain ⟨payload, hpayload, hmerge⟩ := Option.bind_eq_some_iff.mp h
    refine FileSetPayload.mem_merge_right (SpeedboatCommitTableInfo.wf_asFileSetPayload hpayload) hmerge ?_
    obtain ⟨schema, -, rfl⟩ := Option.map_eq_some_iff.mp hpayload
    exact hsegments

/-! ### Steps -/

section

variable (hinv : s.records.FrontierExact)

include hinv

theorem NextCheckpoint.frontierExact {pre c : TableMetadataCheckpoint}
    (h : NextCheckpoint s tableName latest pre c speedboatFiles icebergFiles)
    (hfresh : s.isFreshId tableName s.nextId.1 = true) (hnot : c.validateFullyCoveredForExtension "es" = false) :
    (s.records.commit tableName s.nextId.1 c).FrontierExact ∧
      Grows s.records (s.records.commit tableName s.nextId.1 c) ∧
      ∃ c', (s.records.commit tableName s.nextId.1 c).IsOf tableName s.nextId.1 c' := by
  obtain ⟨hnone, hlater⟩ := isFreshId_spec hfresh
  obtain ⟨extensionMetadata, heq⟩ := h.filled.eq
  have hname : c.tableName = tableName := by rw [heq]; exact h.name
  have hid : c.checkpointId = s.nextId.1 := by rw [heq]; exact h.id
  have hfrontier : (s.records.commit tableName s.nextId.1 c).frontier (some "es") = s.records.frontier (some "es") := by
    simp [CoverageRecords.commit, setFrontier, store]
  refine ⟨hinv.store hnone hname hid rfl rfl (Or.inl ⟨hnot, hfrontier⟩),
    Grows.store hnone hname hid rfl hlater, c, ?_, hname, hid⟩
  exact update_self _ _ _

theorem InfoStep.frontierExact (h : InfoStep s info s') (hok : s.infoLeavesWork info = true) :
    s'.records.FrontierExact ∧ Grows s.records s'.records := by
  obtain ⟨hfresh, hany⟩ := Bool.and_eq_true_iff.mp hok
  obtain ⟨path, hpath, hnotKnown⟩ := any_eq_true.mp hany
  have hknown : s.isKnown info.tableName path = false := by simpa using hnotKnown
  cases h with
  | commit htype hnext hfiles hiceberg hq =>
    have hdelete : info.commitType ≠ "delete" := by
      rcases htype with htype | htype <;> rw [htype] <;> decide
    rw [infoPaths, if_neg hdelete] at hpath
    obtain ⟨hsegments, hmem⟩ := mem_filter.mp hpath
    have hspeedboat := mem_committedSpeedboatFiles_of_mem hfiles (of_decide_eq_true hmem) hsegments
    obtain ⟨hinv', hgrows, hstored⟩ := hnext.frontierExact hinv hfresh
      (hnext.not_covered (mem_append_right _ hspeedboat) hknown)
    obtain ⟨hinv'', hqueued⟩ := hinv'.queued hq hstored
    exact ⟨hinv'', hgrows.trans hqueued⟩
  | @delete latest pre c speedboatFiles icebergFiles htype hnext hspeedboat hiceberg hrecords =>
    rw [infoPaths, if_pos htype] at hpath
    obtain ⟨schema, hschema⟩ := hnext.base
    have hpre : path ∈ pre.icebergPaths ++ pre.speedboatPaths := by
      rw [TableMetadataCheckpoint.icebergPaths, TableMetadataCheckpoint.speedboatPaths, hspeedboat, hiceberg]
      rcases latestStored_of_latestCheckpoint hschema with hlatest | ⟨hlatest, -⟩
      · rw [hlatest, Option.map_some, Option.getD_some] at hpath
        exact hpath
      · rw [hlatest, Option.map_none, Option.getD_none] at hpath
        cases hpath
    have hnot := hnext.not_covered hpre hknown
    obtain ⟨hinv', hgrows, -⟩ := hnext.frontierExact hinv hfresh hnot
    rw [hrecords]
    exact ⟨hinv', hgrows⟩

theorem IcebergStep.frontierExact {commit : IcebergCommit} {pre c : TableMetadataCheckpoint}
    (h : IcebergStep s tableName commit s' latest pre c speedboatFiles icebergFiles)
    (hok : s.leavesWork (.icebergCommit tableName commit) = true) :
    s'.records.FrontierExact ∧ Grows s.records s'.records := by
  obtain ⟨hfresh, hany⟩ := Bool.and_eq_true_iff.mp hok
  obtain ⟨path, hpath, hnotKnown⟩ := any_eq_true.mp hany
  have hknown : s.isKnown tableName path = false := by simpa using hnotKnown
  rw [← h.files] at hpath
  obtain ⟨hinv', hgrows, hstored⟩ := h.next.frontierExact hinv hfresh
    (h.next.not_covered (mem_append_left _ hpath) hknown)
  obtain ⟨hinv'', hqueued⟩ := hinv'.queued h.queued hstored
  exact ⟨hinv'', hgrows.trans hqueued⟩

theorem frontierExact_added {metadata : TableMetadataCheckpoint} {r' : CoverageRecords}
    (h : s.records.Added metadata r')
    (hok : s.leavesWork (.addCheckpoint metadata) = true) :
    r'.FrontierExact ∧ Grows s.records r' := by
  obtain ⟨hfresh, hiff⟩ := Bool.and_eq_true_iff.mp hok
  obtain ⟨hnone, hlater⟩ := isFreshId_spec hfresh
  have hstored : (s.records.add metadata).stored = Function.update s.records.stored
      (checkpointKey metadata.tableName metadata.checkpointId) (some metadata) := by
    simp [CoverageRecords.add, hnone]
  have hgrows : Grows s.records (s.records.add metadata) := .store hnone rfl rfl hstored hlater
  have hadd : (s.records.add metadata).FrontierExact := by
    refine hinv.store hnone rfl rfl hstored rfl ?_
    by_cases hes : "es" ∈ metadata.extensionMetadata.keys
    · refine Or.inr ⟨by simpa [hes] using hiff, funext fun t => ?_, fun id' c' hc' =>
        (hlater id' c' hc').le⟩
      simp [CoverageRecords.add, hes, update_apply]
    · refine Or.inl ⟨by simpa [hes] using hiff, funext fun t => ?_⟩
      simp [CoverageRecords.add, hes]
  cases h with
  | frontiers => exact ⟨hadd, hgrows⟩
  | work _ hq =>
    obtain ⟨hinv', hqueued⟩ := hadd.queued hq ⟨metadata, by rw [hstored, update_self], rfl, rfl⟩
    exact ⟨hinv', hgrows.trans hqueued⟩

/-- **One step.** A step that meets the condition keeps the frontier exact, and the checkpoints it adds
are later ones. -/
theorem frontierExact_step {c : TimedCall} (hok : s.leavesWork c.call = true) (hstep : s.step c = some s') :
    s'.records.FrontierExact ∧ Grows s.records s'.records := by
  have h := step_coverageStep hstep
  generalize c.call = call at h hok
  cases h with
  | other heq =>
    rw [heq]
    exact ⟨⟨hinv.keyed, hinv.waiting, hinv.newest, hinv.frontier⟩, .of_stored_eq rfl⟩
  | @speedboat commit mid s' hmid heq =>
    rw [heq]
    refine Run.exec_invariant (P := fun m => m.records.FrontierExact ∧ Grows s.records m.records)
      (fun m info m' hm hinfo hstep => ?_) ⟨hinv, .refl _⟩ (of_decide_eq_true hok) hmid
    obtain ⟨hinv', hgrows⟩ := (infoStep_of_speedboatCommitTableInfo hstep).frontierExact hm.1 hinfo
    exact ⟨hinv', hm.2.trans hgrows⟩
  | iceberg h => exact h.frontierExact hinv hok
  | @extension tableName commit s' maxId h =>
    obtain ⟨hext, hname⟩ := of_decide_eq_true hok
    obtain ⟨-, hmax, -, hstored, hwaiting, hfrontier⟩ := h
    rw [hext] at hmax hstored hwaiting hfrontier
    refine ⟨hinv.cover_advance hext hname rfl hmax hstored hwaiting hfrontier, Grows.trans ?_ (.of_stored_eq hstored)⟩
    exact ⟨fun _ _ h => isOf_cover.mpr h, fun _ _ h => Or.inl (isOf_cover.mp h)⟩
  | add h => exact frontierExact_added hinv h hok

end

def HasCheckpoint (s : EphemeralServiceImpl) (tableName id : String) : Prop :=
  ∃ c, s.getCheckpointSync tableName id = some c ∧ c.tableName = tableName ∧ c.checkpointId = id

/-- The service has a table's checkpoint, and all its data files are covered for `"es"`. -/
def HasCovered (s : EphemeralServiceImpl) (tableName id : String) : Prop :=
  ∃ c, (s.getCheckpointSync tableName id = some c ∧ c.tableName = tableName ∧ c.checkpointId = id) ∧
    c.validateFullyCoveredForExtension "es" = true

/-- **Extension frontier.** In every run whose steps meet the condition, the frontier of `"es"` is a
covered checkpoint of the table, and none of the table's covered checkpoints is newer: wherever the
run had the frontier's checkpoint already, it had the covered one too. Only `"es"` is treated, the extension
for which the service queues work itself; the frontier of another extension is set by added checkpoints and
by nothing else. -/
theorem newest_covered_of_exec {mode : CompactionMode} {ids : IdInstance} {before after : List TimedCall}
    {m : EphemeralServiceImpl}
    (hok : Run.Along step (fun s c => s.leavesWork c.call = true) (new mode ids) (before ++ after))
    (hbefore : Run.exec step (new mode ids) before = some m) (hafter : Run.exec step m after = some s)
    (tableName : String) :
    (∀ id, s.records.frontier (some "es") tableName = some id → s.HasCovered tableName id) ∧
    ∀ id, s.HasCovered tableName id → ∃ frontier,
      s.records.frontier (some "es") tableName = some frontier ∧ id ≤ frontier ∧
        (m.HasCheckpoint tableName frontier → m.HasCheckpoint tableName id) := by
  have hnew : (new mode ids).records.FrontierExact := ⟨nofun, nofun, nofun, nofun⟩
  have hm : m.records.FrontierExact :=
    Run.exec_invariant (P := fun s => s.records.FrontierExact)
      (fun _ _ _ hinv hstep h => (frontierExact_step hinv hstep h).1) hnew hok.left hbefore
  obtain ⟨hs, hgrows⟩ : s.records.FrontierExact ∧ Grows m.records s.records :=
    Run.exec_invariant (P := fun s => s.records.FrontierExact ∧ Grows m.records s.records)
      (fun _ _ _ hinv hstep h =>
        (frontierExact_step hinv.1 hstep h).imp_right hinv.2.trans)
      ⟨hm, .refl _⟩ (hok.right hbefore) hafter
  refine ⟨hs.frontier tableName, ?_⟩
  rintro id ⟨c, ⟨hc, hname, hid⟩, hcovered⟩
  obtain ⟨frontier, hfrontier, hle⟩ := hs.newest _ c hc hcovered
  rw [hname] at hfrontier
  rw [hid] at hle
  refine ⟨frontier, hfrontier, hle, ?_⟩
  rintro ⟨d, hd⟩
  rcases hgrows.later tableName id ⟨c, hc, hname, hid⟩ with hold | hlater
  · exact hold
  · exact absurd (hlater frontier d hd) (not_lt.mpr hle)

def coverFile (tableName file : String) : ServiceCall := .extensionCommit tableName ⟨"work", "es", Dict.single file []⟩

theorem newest_covered_of_exec_twoFiles :
    ∃ m s, Run.exec step (new .disabled .counting) [⟨0, commitFile "t" "f1"⟩, ⟨0, coverFile "t" "f1"⟩] =
        some m ∧ Run.exec step m [⟨0, commitFile "t" "f2"⟩, ⟨0, coverFile "t" "f2"⟩] = some s ∧
      s.records.frontier (some "es") "t" = some "3" ∧ s.HasCovered "t" "3" := by
  obtain ⟨m, hm, s, hs, hfrontier⟩ : ∃ m, Run.exec step (new .disabled .counting)
      [⟨0, commitFile "t" "f1"⟩, ⟨0, coverFile "t" "f1"⟩] = some m ∧
      ∃ s, Run.exec step m [⟨0, commitFile "t" "f2"⟩, ⟨0, coverFile "t" "f2"⟩] = some s ∧
        s.records.frontier (some "es") "t" = some "3" := by decide +kernel
  exact ⟨m, s, hm, hs, hfrontier, (newest_covered_of_exec (by decide +kernel) hm hs "t").1 "3" hfrontier⟩

/-- The delete makes a covered checkpoint without any work. -/
def deleteAfterCoverCalls : List TimedCall :=
  [⟨0, commitFile "t" "f1"⟩, ⟨0, coverFile "t" "f1"⟩,
    ⟨0, .speedboatCommit ⟨[.fromSegments "delete" "t" [⟨"segment", "d1", 1⟩] none], none⟩⟩]

/-- Two ids of different length, `"9"` and `"11"`, covered by one commit. -/
def coverTogetherCalls : List TimedCall :=
  [⟨0, commitFile "t" "f1"⟩, ⟨0, commitFile "t" "f2"⟩,
    ⟨0, .extensionCommit "t" ⟨"work", "es", AList.insert "f2" [] (Dict.single "f1" [])⟩⟩]

/-- A newer covered checkpoint is not the frontier: after a delete, and where ids differ in length. -/
theorem not_newest_covered_delete : (∃ s, Run.exec step (new .disabled .counting) deleteAfterCoverCalls = some s ∧
      s.HasCovered "t" "3" ∧ s.records.frontier (some "es") "t" = some "1") ∧
    ∃ s, Run.exec step (new .disabled ⟨(· + 9), fun _ _ h => Nat.add_lt_add_right h 9⟩)
        coverTogetherCalls = some s ∧
      s.HasCovered "t" "11" ∧ s.records.frontier (some "es") "t" = some "9" := by
  simp only [HasCovered, and_assoc]
  decide +kernel

end EphemeralServiceImpl

end PowdrrEngine
