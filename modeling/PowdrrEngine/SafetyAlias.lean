import PowdrrEngine.SafetyIsolation

/-! An alias is a second name of a table, but only the latest committed checkpoint is looked up behind it.
What is published, planned and stored is kept under the name as given. So under an alias nothing of the
table is ever published, and a commit to the alias is not one to the table: it misses the checkpoint it
has to build on. -/

namespace PowdrrEngine

open Option Function List Run

/-- What can be asked about the checkpoints of a table: the latest committed one, the target, the active
one, and both ids of the cutover state. -/
structure CheckpointReads where
  latest : Option String
  target : Option String
  active : Option String
  cutoverActive : Option String
  cutoverTarget : Option String
  deriving DecidableEq

/-- A commit before it is addressed to a table. A speedboat commit has at least one table info. -/
inductive TableCommit where
  | speedboat (first : SpeedboatCommitTableInfo) (rest : List SpeedboatCommitTableInfo)
  | iceberg (commit : IcebergCommit)
  | extension (commit : ExtensionCommit)
  | compaction (commit : CompactionCommit)

def TableCommit.addressedTo (tableName : String) : TableCommit → ServiceCall
  | .speedboat first rest => .speedboatCommit ⟨(first :: rest).map ({ · with tableName }), none⟩
  | .iceberg commit => .icebergCommit tableName commit
  | .extension commit => .extensionCommit tableName commit
  | .compaction commit => .compactionCommit tableName commit

namespace EphemeralServiceImpl

variable {s s' : EphemeralServiceImpl} {tableName aliasName : String} {extension : Option String}

section

variable (s : EphemeralServiceImpl) (now : Int) (tableName : String) (extension : Option String)

def checkpointReads : CheckpointReads where
  latest := s.getLatestMaterializedCheckpointSync tableName extension
  target := s.getLatestTargetCheckpoint tableName extension
  active := s.getPublishedCheckpointSync .active tableName extension
  cutoverActive := (s.getCheckpointCutoverState now tableName extension).1.activeCheckpointId
  cutoverTarget := (s.getCheckpointCutoverState now tableName extension).1.targetCheckpointId

theorem cutoverState_ids :
    (s.getCheckpointCutoverState now tableName extension).1.activeCheckpointId =
        s.getPublishedCheckpointSync .active tableName extension ∧
      (s.getCheckpointCutoverState now tableName extension).1.targetCheckpointId =
        s.getLatestMaterializedCheckpointSync tableName extension := by
  have hops : ViewOps now (Selects tableName extension) s (s.captureForCutoverState now tableName extension) :=
    viewOps_captureForCutoverState s now ⟨rfl, rfl⟩
  exact ⟨congrArg (fun cat => AList.lookup _ (CheckpointCatalog.publishedCheckpointId cat)) (catalog_of_viewOps hops),
    rfl⟩

end

/-! ### Names that no call uses -/

/-- No selector the call is addressed to shares a key with one of the given name. -/
def SparesName (name : String) (s : EphemeralServiceImpl) (c : TimedCall) : Prop :=
  ∀ t e, s.Addresses c.call t e → ∀ e', Apart t e name e'

theorem Apart.of_tables {tableName₁ : String} (hne : tableName₁ ≠ tableName)
    (h₁ : '_' ∉ tableName₁.toList ∧ '|' ∉ tableName₁.toList)
    (h : '_' ∉ tableName.toList ∧ '|' ∉ tableName.toList) (extension₁ extension : Option String) :
    Apart tableName₁ extension₁ tableName extension := by
  refine ⟨fun heq => ?_, fun _ id₁ id heq => ?_, fun e₁ e _ _ file₁ file heq => ?_⟩
  · exact hne (Text.glue_inj_of_notMem_right (c := '|') h₁.2 h.2 heq).2
  · exact hne (Text.glue_inj_of_notMem_left (c := '_') h₁.1 h.1 heq).1
  · simp only [recentFileKey_eq] at heq
    exact hne (Text.glue_inj_of_notMem_left (c := '_') h₁.1 h.1 heq).1

variable {mode : CompactionMode} {ids : IdInstance} {calls : List TimedCall}

theorem selectorRecords_of_exec (hexec : Run.exec step (new mode ids) calls = some s)
    (hspares : Run.Along step (SparesName aliasName) (new mode ids) calls) (extension : Option String) :
    s.selectorRecords aliasName extension = (new mode ids).selectorRecords aliasName extension := by
  refine exec_invariant (P := fun s => s.selectorRecords aliasName extension =
    (new mode ids).selectorRecords aliasName extension) (fun s c s' hs hc hstep => ?_) rfl hspares hexec
  rw [← hs]
  refine selectorRecords_of_step hstep (fun h => (hc _ _ h extension).group rfl)
    (fun _ t e ht => (hc t e ht extension).group) (fun _ t e ht => (hc t e ht extension).checkpoints)
    fun t commit hcall e he => ?_
  have haddressed : s.Addresses c.call t (some commit.extension) := by
    rw [hcall]
    exact ⟨rfl, rfl⟩
  exact (hc _ _ haddressed extension).files _ _ rfl he

structure Unused (s : EphemeralServiceImpl) (name : String) : Prop where
  published : ∀ role extension, s.getPublishedCheckpointSync role name extension = none
  stored : ∀ id, s.getCheckpointSync name id = none

theorem unused_of_exec (hexec : Run.exec step (new mode ids) calls = some s)
    (hspares : Run.Along step (SparesName aliasName) (new mode ids) calls) : s.Unused aliasName := by
  refine ⟨fun role extension => ?_, fun id => ?_⟩
  · exact congrFun (congrArg SelectorRecords.published (selectorRecords_of_exec hexec hspares extension)) role
  · exact map_eq_none_iff.mp
      (congrFun (congrArg SelectorRecords.checkpoint (selectorRecords_of_exec hexec hspares none)) id)

/-! ### Reads by an alias -/

theorem getLatest_alias (halias : s.tableAliases.lookup aliasName = some tableName)
    (htable : tableName ∉ s.tableAliases) (extension : Option String) :
    s.getLatestMaterializedCheckpointSync aliasName extension =
      s.getLatestMaterializedCheckpointSync tableName extension := by
  have hbehind : s.realTableName aliasName = tableName := congrArg (Option.getD · aliasName) halias
  have hself : s.realTableName tableName = tableName :=
    congrArg (Option.getD · tableName) (AList.lookup_eq_none.mpr htable)
  rw [getLatestMaterializedCheckpointSync, getLatestMaterializedCheckpointSync, hbehind, hself]

theorem checkpointReads_alias_iff (hunused : s.Unused aliasName)
    (halias : s.tableAliases.lookup aliasName = some tableName) (htable : tableName ∉ s.tableAliases)
    (now : Int) (extension : Option String) :
    s.checkpointReads now aliasName extension = s.checkpointReads now tableName extension ↔
      s.getPublishedCheckpointSync .active tableName extension = none ∧
        ∀ id, s.getPublishedCheckpointSync .target tableName extension = some id →
          s.getLatestMaterializedCheckpointSync tableName extension = some id := by
  obtain ⟨hactive₁, htarget₁⟩ := s.cutoverState_ids now aliasName extension
  obtain ⟨hactive, htarget⟩ := s.cutoverState_ids now tableName extension
  simp only [checkpointReads, hactive₁, htarget₁, hactive, htarget, getLatestTargetCheckpoint,
    hunused.published, getLatest_alias halias htable, CheckpointReads.mk.injEq, none_or, true_and,
    and_true]
  constructor
  · rintro ⟨hsame, hnone, -⟩
    refine ⟨hnone.symm, fun id hid => ?_⟩
    rw [hid, some_or] at hsame
    exact hsame
  rintro ⟨hnone, hplanned⟩
  refine ⟨?_, hnone.symm, hnone.symm⟩
  cases hid : s.getPublishedCheckpointSync .target tableName extension with
  | none => rfl
  | some id => rw [some_or, hplanned id hid]

/-! ### Commits to an alias -/

open CoverageRecords

theorem NextCheckpoint.latest_eq_none {latest pre c : TableMetadataCheckpoint}
    {speedboatFiles icebergFiles : FileSetPayload} (hunused : s.Unused aliasName)
    (h : NextCheckpoint s aliasName latest pre c speedboatFiles icebergFiles) :
    s.getLatestMaterializedCheckpointSync aliasName none = none := by
  obtain ⟨schema, hbase⟩ := h.base
  unfold latestCheckpoint at hbase
  split at hbase
  · rw [hunused.stored] at hbase
    cases hbase
  · assumption

theorem stored_of_infos_to {infos : List SpeedboatCommitTableInfo}
    (h : Run.exec speedboatCommitTableInfo s infos = some s') (hne : infos ≠ [])
    (hto : ∀ info ∈ infos, info.tableName = tableName) :
    ∃ id, (s'.getCheckpointSync tableName id).isSome := by
  obtain ⟨before, last, rfl⟩ := (eq_nil_or_concat infos).resolve_left hne
  rw [concat_eq_append] at h
  obtain ⟨mid, -, hlast⟩ := exec_snoc_eq_some.mp h
  refine ⟨mid.nextId.1, ?_⟩
  rw [← hto last (by simp)]
  change (s'.records.stored (checkpointKey last.tableName mid.nextId.1)).isSome
  cases infoStep_of_speedboatCommitTableInfo hlast with
  | commit _ _ _ _ hq =>
    rw [hq.stored]
    exact isSome_iff_exists.mpr ⟨_, update_self _ _ _⟩
  | delete _ _ _ _ heq =>
    rw [heq]
    exact isSome_iff_exists.mpr ⟨_, update_self _ _ _⟩

section

variable (hunused : s.Unused aliasName)

include hunused

variable {now : Int}

theorem speedboat_addressedTo {first : SpeedboatCommitTableInfo} {rest : List SpeedboatCommitTableInfo}
    (h : s.step ⟨now, (TableCommit.speedboat first rest).addressedTo aliasName⟩ = some s') :
    s.getLatestMaterializedCheckpointSync aliasName none = none ∧ ∃ id, (s'.getCheckpointSync aliasName id).isSome := by
  obtain ⟨mid, hinfos, hrecords⟩ := exec_of_speedboatCommit ((step_speedboatCommit _).symm.trans h)
  constructor
  · obtain ⟨m, hfirst, -⟩ := bind_eq_some_iff.mp hinfos
    cases infoStep_of_speedboatCommitTableInfo hfirst with
    | commit _ hnext => exact hnext.latest_eq_none hunused
    | delete _ hnext => exact hnext.latest_eq_none hunused
  obtain ⟨id, hid⟩ : ∃ id, (mid.getCheckpointSync aliasName id).isSome := stored_of_infos_to hinfos (by simp) (by simp)
  refine ⟨id, ?_⟩
  have hstored := congrFun (congrArg CoverageRecords.stored hrecords) (checkpointKey aliasName id)
  change (s'.records.stored _).isSome
  rw [hstored]
  exact hid

theorem iceberg_addressedTo {commit : IcebergCommit}
    (h : s.step ⟨now, (TableCommit.iceberg commit).addressedTo aliasName⟩ = some s') :
    s.getLatestMaterializedCheckpointSync aliasName none = none ∧ ∃ id, (s'.getCheckpointSync aliasName id).isSome := by
  obtain ⟨_, _, _, _, _, hstep⟩ := icebergStep_of_icebergCommit ((step_icebergCommit _).symm.trans h)
  refine ⟨hstep.next.latest_eq_none hunused, s.nextId.1, ?_⟩
  change (s'.records.stored (checkpointKey aliasName s.nextId.1)).isSome
  rw [hstep.queued.stored]
  exact isSome_iff_exists.mpr ⟨_, update_self _ _ _⟩

theorem extension_addressedTo {commit : ExtensionCommit} :
    s.step ⟨now, (TableCommit.extension commit).addressedTo aliasName⟩ = none := by
  by_contra hsome
  obtain ⟨s', h⟩ := ne_none_iff_exists'.mp hsome
  rw [TableCommit.addressedTo, step_extensionCommit] at h
  simp only [extensionCommit, bind_eq_some] at h
  obtain ⟨⟨covered, s1⟩, hcover, maxId, hmax, -⟩ := h
  cases hwaiting : s.checkpointsNeedingExtensionWork.getD (extensionWorkKey aliasName commit.extension) []
    with
  | nil =>
    rw [hwaiting] at hcover
    cases hcover
    cases hmax
  | cons id ids =>
    rw [hwaiting, addCoverageForAll, foldlM_cons] at hcover
    obtain ⟨_, hfirst, -⟩ := bind_eq_some_iff.mp hcover
    obtain ⟨_, hfirst, -⟩ := map_eq_some_iff.mp hfirst
    obtain ⟨_, hget, -⟩ := bind_eq_some_iff.mp hfirst
    rw [hunused.stored] at hget
    cases hget

theorem unused_addressedTo {commit : TableCommit} (hapart : ∀ e e', Apart tableName e aliasName e')
    (h : s.step ⟨now, commit.addressedTo tableName⟩ = some s') (id : String) :
    s'.getCheckpointSync aliasName id = none := by
  have htable : tableName ≠ aliasName := by
    rintro rfl
    exact (hapart none none).group rfl
  have hstored : s'.records.stored (checkpointKey aliasName id) = _ := stored_of_step h fun t e ht id₁ heq => ?_
  · exact hstored.trans (hunused.stored id)
  suffices ht' : t = tableName by
    subst ht'
    exact (hapart none none).checkpoints htable id₁ id heq.symm
  cases commit with
  | speedboat first rest =>
    obtain ⟨info, hinfo, rfl⟩ := ht
    obtain ⟨_, -, rfl⟩ := mem_map.mp hinfo
    rfl
  | iceberg => exact ht
  | extension => exact ht.1
  | compaction => exact ht.elim

theorem step_addressedTo_iff (hapart : ∀ e e', Apart tableName e aliasName e') (now : Int) (commit : TableCommit) :
    s.step ⟨now, commit.addressedTo aliasName⟩ = s.step ⟨now, commit.addressedTo tableName⟩ ↔
      s.step ⟨now, commit.addressedTo aliasName⟩ = none ∧ s.step ⟨now, commit.addressedTo tableName⟩ = none := by
  refine ⟨fun hsame => ?_, fun h => h.1.trans h.2.symm⟩
  suffices hnone : s.step ⟨now, commit.addressedTo aliasName⟩ = none from ⟨hnone, hsame ▸ hnone⟩
  by_contra hsome
  obtain ⟨s', halias⟩ := ne_none_iff_exists'.mp hsome
  have htable := hsame.symm.trans halias
  suffices hstored : ∃ id, (s'.getCheckpointSync aliasName id).isSome by
    obtain ⟨id, hid⟩ := hstored
    rw [unused_addressedTo hunused hapart htable id] at hid
    cases hid
  cases commit with
  | speedboat first rest => exact (speedboat_addressedTo hunused halias).2
  | iceberg commit => exact (iceberg_addressedTo hunused halias).2
  | extension commit => exact absurd (extension_addressedTo hunused) hsome
  | compaction commit =>
    cases halias
    have hlookup := congrArg (AList.lookup commit.compactionId)
      (congrArg EphemeralServiceImpl.compactions (some.inj htable))
    simp only [compactionCommit, AList.lookup_insert] at hlookup
    have hname : tableName = aliasName := congrArg Prod.fst (some.inj hlookup)
    subst hname
    exact absurd rfl (hapart none none).group

end

/-- **How far an alias is transparent.** In every run whose calls are addressed to other names: asking for
the latest committed checkpoint by the alias is asking by the table; all the reads agree exactly while
the table has no active checkpoint and no target but the latest committed one; a commit to the alias
does what the commit to the table does only where both stop the service; and once the table has a
committed checkpoint, every speedboat and iceberg commit to the alias stops it. -/
theorem alias_transparent_iff_of_exec (hexec : Run.exec step (new mode ids) calls = some s)
    (hspares : Run.Along step (SparesName aliasName) (new mode ids) calls)
    (halias : s.tableAliases.lookup aliasName = some tableName) (htable : tableName ∉ s.tableAliases)
    (hapart : ∀ e e', Apart tableName e aliasName e') (now : Int) :
    (∀ extension, s.getLatestMaterializedCheckpointSync aliasName extension =
      s.getLatestMaterializedCheckpointSync tableName extension) ∧
    (∀ extension, s.checkpointReads now aliasName extension = s.checkpointReads now tableName extension ↔
      s.getPublishedCheckpointSync .active tableName extension = none ∧
        ∀ id, s.getPublishedCheckpointSync .target tableName extension = some id →
          s.getLatestMaterializedCheckpointSync tableName extension = some id) ∧
    (∀ commit : TableCommit, s.step ⟨now, commit.addressedTo aliasName⟩ = s.step ⟨now, commit.addressedTo tableName⟩ ↔
        s.step ⟨now, commit.addressedTo aliasName⟩ = none ∧ s.step ⟨now, commit.addressedTo tableName⟩ = none) ∧
    ((s.getLatestMaterializedCheckpointSync tableName none).isSome →
      (∀ first rest, s.step ⟨now, (TableCommit.speedboat first rest).addressedTo aliasName⟩ = none) ∧
        ∀ commit, s.step ⟨now, (TableCommit.iceberg commit).addressedTo aliasName⟩ = none) := by
  have hunused := unused_of_exec hexec hspares
  have hlatest := getLatest_alias halias htable
  refine ⟨hlatest, checkpointReads_alias_iff hunused halias htable now,
    step_addressedTo_iff hunused hapart now, fun hsome => ⟨fun first rest => ?_, fun commit => ?_⟩⟩
  · by_contra hgoes
    obtain ⟨s', h⟩ := ne_none_iff_exists'.mp hgoes
    rw [← hlatest, (speedboat_addressedTo hunused h).1] at hsome
    cases hsome
  · by_contra hgoes
    obtain ⟨s', h⟩ := ne_none_iff_exists'.mp hgoes
    rw [← hlatest, (iceberg_addressedTo hunused h).1] at hsome
    cases hsome

/-- For `t` the checkpoint `c` is committed and the checkpoint `b` planned; `a` is an alias of `t`. -/
def plannedCalls : List TimedCall :=
  [⟨0, .addCheckpoint { tableName := "t", checkpointId := "c", schema := .minimal }⟩,
    ⟨0, .planCheckpointCutover ⟨.forTarget "t" none, "b"⟩⟩, ⟨0, .addAlias "t" "a"⟩]

/-- The reads without an extension differ, by the planned target; those of the search extension agree. -/
theorem alias_transparent_iff_of_exec_planned : ∃ s, Run.exec step (new .disabled .counting) plannedCalls = some s ∧
      s.checkpointReads 0 "a" none ≠ s.checkpointReads 0 "t" none ∧
      s.checkpointReads 0 "a" (some "es") = s.checkpointReads 0 "t" (some "es") := by
  refine exists_end (p := fun s => s.tableAliases.lookup "a" = some "t" ∧ "t" ∉ s.tableAliases ∧
    s.getPublishedCheckpointSync .target "t" none = some "b" ∧
    s.getLatestMaterializedCheckpointSync "t" none = some "c" ∧
    s.getPublishedCheckpointSync .active "t" (some "es") = none ∧
    s.getPublishedCheckpointSync .target "t" (some "es") = none) (by decide +kernel) ?_
  rintro s hs ⟨halias, htable, hplanned, hlatest, hactive, htarget⟩
  have hapart := Apart.of_tables (show "t" ≠ "a" by decide) (by decide) (by decide)
  have hspares : Run.Along step (SparesName "a") (new .disabled .counting) plannedCalls := by
    refine ⟨fun t e h e' => ?_, fun _ _ => ⟨fun t e h e' => ?_, fun _ _ => ⟨nofun, fun _ _ => trivial⟩⟩⟩
    · obtain rfl : t = "t" := h
      exact hapart e e'
    · obtain rfl : t = "t" := h.1
      exact hapart e e'
  obtain ⟨-, hreads, -⟩ := alias_transparent_iff_of_exec hs hspares halias htable hapart 0
  refine ⟨fun hsame => ?_, (hreads (some "es")).mpr ⟨hactive, fun id hid => ?_⟩⟩
  · have hagree := ((hreads none).mp hsame).2 "b" hplanned
    rw [hlatest] at hagree
    exact absurd hagree (by decide)
  · rw [htarget] at hid
    cases hid

/-- The table `t`, promoted as in `replacedNodeCalls`, has the alias `a`. -/
def aliasCalls : List TimedCall := replacedNodeCalls ++ [⟨100000, .updateAllCheckpoints⟩, ⟨100000, .addAlias "t" "a"⟩]

/-- The first segment of a speedboat commit to `t`. -/
def aliasSegment : SpeedboatCommitTableInfo := .fromSegments "commit" "t" [⟨"1", "f", 1⟩] (some .minimal)

/-- By the alias there is no active checkpoint, and a commit that the table takes stops the service. -/
theorem alias_not_transparent : ∃ s, Run.exec step (new .disabled .counting) aliasCalls = some s ∧
      s.tableAliases.lookup "a" = some "t" ∧
      s.getPublishedCheckpointSync .active "t" none = some "c" ∧
      s.getPublishedCheckpointSync .active "a" none = none ∧
      (s.step ⟨100000, (TableCommit.speedboat aliasSegment []).addressedTo "t"⟩).isSome ∧
      s.step ⟨100000, (TableCommit.speedboat aliasSegment []).addressedTo "a"⟩ = none := by
  decide +kernel

end EphemeralServiceImpl

end PowdrrEngine
