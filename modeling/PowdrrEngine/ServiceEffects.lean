import PowdrrEngine.ServiceFrames

/-! What the calls do to the catalog of checkpoints: which checkpoints exist, which are the latest
committed ones, which wait for an extension and which are published. Every commit is described once
here, and `step_catalogEffect` says what any call can do; the safety proofs use nothing else of the
functions behind it. -/

namespace PowdrrEngine

open List Run Dict TableMetadataCheckpoint

/-- The part of the service that decides which checkpoints are or may become active. -/
structure CheckpointCatalog where
  ids : IdInstance
  drawn : Nat
  tableAliases : Dict String String
  latestCommittedCheckpointId : Dict (Option String) (Dict String String)
  publishedCheckpointId : Dict String String
  compactions : Dict String (String × CompactionCommit)
  checkpoints : Dict String TableMetadataCheckpoint
  checkpointsNeedingExtensionWork : Dict String (List String)

namespace CheckpointCatalog

variable {cat cat' : CheckpointCatalog} {c : TableMetadataCheckpoint} {tableName id : String}

section

variable (cat : CheckpointCatalog)

/-- A checkpoint id is the latest committed one of some table, without an extension or for `"es"`;
those are the frontiers that publication follows. -/
def IsLatest (id : String) : Prop :=
  ∃ extension checkpoints tableName, extension ∈ [none, some "es"] ∧
    cat.latestCommittedCheckpointId.lookup extension = some checkpoints ∧ checkpoints.lookup tableName = some id

def Awaits (id : String) : Prop :=
  ∃ key waiting, cat.checkpointsNeedingExtensionWork.lookup key = some waiting ∧ id ∈ waiting

def IsActive (id : String) : Prop :=
  ∃ tableName extension, cat.publishedCheckpointId.lookup
    (EphemeralServiceImpl.selectorStorageKey .active tableName extension) = some id

def latestId (tableName : String) : Option String :=
  (cat.latestCommittedCheckpointId.lookup none).bind fun c =>
    c.lookup (cat.tableAliases.getD tableName tableName)

def nextCheckpointId : String := cat.ids.text cat.drawn

/-- The checkpoint a commit builds on: the latest one of the table, or one without any file where
the table has none. -/
def Base (tableName : String) (latest : TableMetadataCheckpoint) : Prop :=
  (∃ id, cat.latestId tableName = some id ∧
    cat.checkpoints.lookup (EphemeralServiceImpl.checkpointKey tableName id) = some latest) ∨
  (cat.latestId tableName = none ∧ latest.icebergMetadata = none ∧ latest.speedboatMetadata = none ∧
    latest.deletesMetadata = none)

end

def setLatest (cat : CheckpointCatalog) (extension : Option String) (tableName id : String) : CheckpointCatalog :=
  let checkpoints := (cat.latestCommittedCheckpointId.getD extension ∅).insert tableName id
  { cat with latestCommittedCheckpointId := cat.latestCommittedCheckpointId.insert extension checkpoints }

/-- The catalog in which `c` is stored for a table under the next id, and is its latest checkpoint. -/
def commit (cat : CheckpointCatalog) (tableName : String) (c : TableMetadataCheckpoint) : CheckpointCatalog :=
  let key := EphemeralServiceImpl.checkpointKey tableName cat.nextCheckpointId
  let stored := { cat with drawn := cat.drawn + 1, checkpoints := cat.checkpoints.insert key c }
  stored.setLatest none (cat.tableAliases.getD tableName tableName) cat.nextCheckpointId

/-- Only ids were drawn and the waiting lists changed. -/
structure Keeps (cat cat' : CheckpointCatalog) : Prop where
  ids : cat'.ids = cat.ids
  drawn : cat.drawn ≤ cat'.drawn
  aliases : cat'.tableAliases = cat.tableAliases
  latest : cat'.latestCommittedCheckpointId = cat.latestCommittedCheckpointId
  published : cat'.publishedCheckpointId = cat.publishedCheckpointId
  compactions : cat'.compactions = cat.compactions
  checkpoints : cat'.checkpoints = cat.checkpoints

theorem Keeps.refl (cat : CheckpointCatalog) : Keeps cat cat := ⟨rfl, le_rfl, rfl, rfl, rfl, rfl, rfl⟩

theorem Keeps.trans {a b c : CheckpointCatalog} (h : Keeps a b) (k : Keeps b c) : Keeps a c :=
  ⟨k.ids.trans h.ids, h.drawn.trans k.drawn, k.aliases.trans h.aliases, k.latest.trans h.latest,
    k.published.trans h.published, k.compactions.trans h.compactions, k.checkpoints.trans h.checkpoints⟩

theorem Keeps.setLatest (h : Keeps cat cat') (extension : Option String) (tableName id : String) :
    Keeps (cat.setLatest extension tableName id) (cat'.setLatest extension tableName id) :=
  ⟨h.ids, h.drawn, h.aliases, by simp only [CheckpointCatalog.setLatest, h.latest], h.published,
    h.compactions, h.checkpoints⟩

/-- The catalog after a checkpoint `c` was committed for a table. -/
structure Commits (cat cat' : CheckpointCatalog) (tableName : String) (c : TableMetadataCheckpoint) : Prop where
  keeps : Keeps (cat.commit tableName c) cat'
  awaits : ∀ id, cat'.Awaits id → cat.Awaits id ∨ id = cat.nextCheckpointId

theorem isLatest_setLatest {extension : Option String} {id' : String}
    (h : (cat.setLatest extension tableName id).IsLatest id') :
    cat.IsLatest id' ∨ id' = id := by
  obtain ⟨e, checkpoints, t, he, hlookup, hid⟩ := h
  rcases lookup_insert_nested hlookup hid with ⟨-, -, rfl⟩ | ⟨old, hold, hid⟩
  · exact Or.inr rfl
  · exact Or.inl ⟨e, old, t, he, hold, hid⟩

theorem awaits_congr (h : cat'.checkpointsNeedingExtensionWork = cat.checkpointsNeedingExtensionWork) :
    cat'.Awaits id ↔ cat.Awaits id := by
  unfold Awaits
  rw [h]

theorem Keeps.isLatest (h : Keeps cat cat') : cat'.IsLatest id ↔ cat.IsLatest id := by
  unfold IsLatest
  rw [h.latest]

theorem Commits.latestId (h : Commits cat cat' tableName c) : cat'.latestId tableName = some cat.nextCheckpointId := by
  unfold CheckpointCatalog.latestId
  rw [h.keeps.latest, h.keeps.aliases]
  simp [commit, setLatest]

def InfoEffect (cat : CheckpointCatalog) (info : SpeedboatCommitTableInfo) (cat' : CheckpointCatalog) : Prop :=
  ∃ latest c, cat.Base info.tableName latest ∧ Commits cat cat' info.tableName c ∧
    c.icebergMetadata = latest.icebergMetadata ∧
    ((∃ files, EphemeralServiceImpl.committedSpeedboatFiles latest info = some files ∧
        c.speedboatMetadata = some ⟨files⟩ ∧ c.deletesMetadata = latest.deletesMetadata) ∨
      (c.speedboatMetadata = latest.speedboatMetadata ∧ c.deletesMetadata = some ⟨latest.deletePaths ++ info.files⟩))

inductive InfosEffect : CheckpointCatalog → List SpeedboatCommitTableInfo → CheckpointCatalog → Prop
  | nil (cat : CheckpointCatalog) : InfosEffect cat [] cat
  | cons {cat mid cat' info infos} : InfoEffect cat info mid → InfosEffect mid infos cat' →
      InfosEffect cat (info :: infos) cat'

section

variable (cat) (compactions : List String)

def consumedSpeedboatFiles : List String :=
  compactions.flatMap fun compaction =>
    ((cat.compactions.lookup compaction).map fun c => c.2.removedSpeedboatFiles).getD []

def consumedDeleteFiles : List String :=
  compactions.flatMap fun compaction =>
    ((cat.compactions.lookup compaction).map fun c => c.2.removedDeleteFiles).getD []

end

/-- The catalog after an iceberg commit: the commit's iceberg files, and of the speedboat and delete
files what its compactions have not consumed. -/
def IcebergEffect (cat : CheckpointCatalog) (tableName : String) (commit : IcebergCommit)
    (cat' : CheckpointCatalog) : Prop :=
  ∃ latest c, cat.Base tableName latest ∧ Commits cat cat' tableName c ∧ c.icebergMetadata = some commit.metadata ∧
    c.speedboatPaths = latest.speedboatPaths.filter (· ∉ cat.consumedSpeedboatFiles commit.compactions) ∧
    c.deletePaths = latest.deletePaths.filter (· ∉ cat.consumedDeleteFiles commit.compactions) ∧
    (latest.speedboatFiles.Wf → c.speedboatFiles.Wf)

/-- The catalog after an extension commit: checkpoints gain extension files only, and a frontier can
only move to a checkpoint that waited. -/
structure ExtensionEffect (cat cat' : CheckpointCatalog) : Prop where
  ids : cat'.ids = cat.ids
  drawn : cat'.drawn = cat.drawn
  aliases : cat'.tableAliases = cat.tableAliases
  latest : cat'.latestCommittedCheckpointId.lookup none = cat.latestCommittedCheckpointId.lookup none
  published : cat'.publishedCheckpointId = cat.publishedCheckpointId
  checkpoints : ∀ key c', cat'.checkpoints.lookup key = some c' →
    ∃ c extensionMetadata, cat.checkpoints.lookup key = some c ∧ c' = { c with extensionMetadata }
  isLatest : ∀ id, cat'.IsLatest id → cat.IsLatest id ∨ cat.Awaits id
  awaits : ∀ id, cat'.Awaits id → cat.Awaits id

theorem ExtensionEffect.refl (cat : CheckpointCatalog) : ExtensionEffect cat cat :=
  ⟨rfl, rfl, rfl, rfl, rfl, fun _ c h => ⟨c, c.extensionMetadata, h, rfl⟩, fun _ => Or.inl, fun _ h => h⟩

theorem ExtensionEffect.trans {a b c : CheckpointCatalog} (h : ExtensionEffect a b)
    (k : ExtensionEffect b c) : ExtensionEffect a c := by
  refine ⟨k.ids.trans h.ids, k.drawn.trans h.drawn, k.aliases.trans h.aliases, k.latest.trans h.latest,
    k.published.trans h.published, ?_, ?_, fun id hid => h.awaits id (k.awaits id hid)⟩
  · intro key c' hc'
    obtain ⟨d, em, hd, rfl⟩ := k.checkpoints key c' hc'
    obtain ⟨e, em', he, rfl⟩ := h.checkpoints key d hd
    exact ⟨e, em, he, rfl⟩
  · intro id hid
    rcases k.isLatest id hid with hid | hid
    · exact h.isLatest id hid
    · exact Or.inr (h.awaits id hid)

/-- The catalog after a ready-made checkpoint was added; an existing one of the same key stays. -/
structure AddEffect (cat : CheckpointCatalog) (metadata : TableMetadataCheckpoint)
    (cat' : CheckpointCatalog) : Prop where
  ids : cat'.ids = cat.ids
  drawn : cat.drawn ≤ cat'.drawn
  published : cat'.publishedCheckpointId = cat.publishedCheckpointId
  checkpoints : cat'.checkpoints = cat.checkpoints ∨ cat'.checkpoints = cat.checkpoints.insert
    (EphemeralServiceImpl.checkpointKey metadata.tableName metadata.checkpointId) metadata
  isLatest : ∀ id, cat'.IsLatest id → cat.IsLatest id ∨ id = metadata.checkpointId
  awaits : ∀ id, cat'.Awaits id → cat.Awaits id ∨ id = metadata.checkpointId

theorem AddEffect.setLatest {metadata : TableMetadataCheckpoint} (h : AddEffect cat metadata cat')
    (extension : Option String) (tableName : String) :
    AddEffect cat metadata (cat'.setLatest extension tableName metadata.checkpointId) := by
  refine ⟨h.ids, h.drawn, h.published, h.checkpoints, ?_, h.awaits⟩
  intro id hid
  rcases isLatest_setLatest hid with hid | rfl
  · exact h.isLatest id hid
  · exact Or.inr rfl

/-- The catalog after publications: only the published ids change, and what is active now was active
before or is a latest committed checkpoint. -/
structure PublishEffect (cat cat' : CheckpointCatalog) : Prop where
  ids : cat'.ids = cat.ids
  drawn : cat'.drawn = cat.drawn
  aliases : cat'.tableAliases = cat.tableAliases
  latest : cat'.latestCommittedCheckpointId = cat.latestCommittedCheckpointId
  checkpoints : cat'.checkpoints = cat.checkpoints
  waiting : cat'.checkpointsNeedingExtensionWork = cat.checkpointsNeedingExtensionWork
  isActive : ∀ id, cat'.IsActive id → cat.IsActive id ∨ cat.IsLatest id

theorem PublishEffect.refl (cat : CheckpointCatalog) : PublishEffect cat cat :=
  ⟨rfl, rfl, rfl, rfl, rfl, rfl, fun _ => Or.inl⟩

theorem PublishEffect.of_eq (h : cat' = cat) : PublishEffect cat cat' := h ▸ PublishEffect.refl cat'

theorem PublishEffect.trans {a b c : CheckpointCatalog} (h : PublishEffect a b)
    (k : PublishEffect b c) : PublishEffect a c := by
  refine ⟨k.ids.trans h.ids, k.drawn.trans h.drawn, k.aliases.trans h.aliases, k.latest.trans h.latest,
    k.checkpoints.trans h.checkpoints, k.waiting.trans h.waiting, fun id hid => ?_⟩
  rcases k.isActive id hid with hid | hid
  · exact h.isActive id hid
  · right
    unfold IsLatest at hid ⊢
    rwa [h.latest] at hid

/-- Every way in which a call can change the catalog. -/
inductive CatalogEffect (cat : CheckpointCatalog) : ServiceCall → CheckpointCatalog → Prop
  | publish {call cat'} : PublishEffect cat cat' → CatalogEffect cat call cat'
  | addAlias {tableName aliasName tableAliases cat'} : cat' = { cat with tableAliases } →
      CatalogEffect cat (.addAlias tableName aliasName) cat'
  | removeAlias {tableName aliasName tableAliases cat'} : cat' = { cat with tableAliases } →
      CatalogEffect cat (.removeAlias tableName aliasName) cat'
  | speedboat {commit cat'} : InfosEffect cat commit.typeFiles cat' → CatalogEffect cat (.speedboatCommit commit) cat'
  | iceberg {tableName commit cat'} : IcebergEffect cat tableName commit cat' →
      CatalogEffect cat (.icebergCommit tableName commit) cat'
  | extension {tableName commit cat'} : ExtensionEffect cat cat' →
      CatalogEffect cat (.extensionCommit tableName commit) cat'
  | add {metadata cat'} : AddEffect cat metadata cat' → CatalogEffect cat (.addCheckpoint metadata) cat'

end CheckpointCatalog

open CheckpointCatalog

namespace EphemeralServiceImpl

variable {s s' : EphemeralServiceImpl} {tableName id extension checkpointId compaction : String}
  {info : SpeedboatCommitTableInfo} {checkpoint metadata latest : TableMetadataCheckpoint}
  {touched : String → Option String → Prop} {c : TimedCall} {compactions : List String}
  {speedboatFiles icebergFiles : FileSetPayload}

def catalog (s : EphemeralServiceImpl) : CheckpointCatalog :=
  { ids := s.ids, drawn := s.drawn, tableAliases := s.tableAliases
    latestCommittedCheckpointId := s.latestCommittedCheckpointId
    publishedCheckpointId := s.publishedCheckpointId, compactions := s.compactions
    checkpoints := s.checkpoints
    checkpointsNeedingExtensionWork := s.checkpointsNeedingExtensionWork }

theorem catalog_of_viewOps {now : Int} (h : ViewOps now touched s s') : s'.catalog = s.catalog := by
  induction h with
  | refl => rfl
  | tail _ hop ih =>
    rw [← ih]
    cases hop <;> rfl

/-! ### The pieces of a commit -/

theorem awaits_awaitExtension (h : (s.awaitExtension tableName extension checkpointId).catalog.Awaits id) :
    s.catalog.Awaits id ∨ id = checkpointId := by
  obtain ⟨key, waiting, hlookup, hmem⟩ := h
  simp only [catalog, awaitExtension, lookup_insert_eq] at hlookup
  split at hlookup
  · cases hlookup
    rcases mem_append.mp hmem with hold | hnew
    · exact Or.inl ⟨_, exists_of_getD (p := fun ids => id ∈ ids) hold not_mem_nil⟩
    · exact Or.inr (mem_singleton.mp hnew)
  · exact Or.inl ⟨key, waiting, hlookup, hmem⟩

theorem fillExtensionWorkItem_keeps {schema : PowdrrSchema}
    (h : s.fillExtensionWorkItem tableName extension checkpointId schema speedboatFiles icebergFiles = some s') :
    Keeps s.catalog s'.catalog ∧ ∀ id, s'.catalog.Awaits id → s.catalog.Awaits id ∨ id = checkpointId := by
  unfold fillExtensionWorkItem at h
  split at h
  · cases h
    exact ⟨Keeps.refl _, fun id => Or.inl⟩
  simp only [bind_eq_some] at h
  obtain ⟨items, -, tracker, -, heq⟩ := h
  cases heq
  unfold drawTrackerId
  split
  · exact ⟨⟨rfl, le_rfl, rfl, rfl, rfl, rfl, rfl⟩, fun _ => awaits_awaitExtension⟩
  · exact ⟨⟨rfl, Nat.le_succ _, rfl, rfl, rfl, rfl, rfl⟩, fun _ => awaits_awaitExtension⟩

theorem CompactionOps.keeps (h : CompactionOps s s') : Keeps s.catalog s'.catalog ∧
    s'.checkpointsNeedingExtensionWork = s.checkpointsNeedingExtensionWork := by
  induction h with
  | refl => exact ⟨Keeps.refl _, rfl⟩
  | tail _ hop ih =>
    cases hop with
    | note => exact ⟨ih.1.trans ⟨rfl, le_rfl, rfl, rfl, rfl, rfl, rfl⟩, ih.2⟩
    | start | finish => exact ⟨ih.1.trans ⟨rfl, Nat.le_succ _, rfl, rfl, rfl, rfl, rfl⟩, ih.2⟩

theorem tryFillCheckpointExtensionMetadata_eq {c : TableMetadataCheckpoint}
    (h : s.tryFillCheckpointExtensionMetadata extension checkpoint = some (c, speedboatFiles, icebergFiles)) :
    ∃ extensionMetadata, c = { checkpoint with extensionMetadata } := by
  simp only [tryFillCheckpointExtensionMetadata, bind_eq_some] at h
  obtain ⟨_, -, _, -, heq⟩ := h
  cases heq
  exact ⟨_, rfl⟩

theorem latestCheckpoint_base {schema : Option PowdrrSchema} (h : s.latestCheckpoint tableName schema = some latest) :
    s.catalog.Base tableName latest := by
  unfold latestCheckpoint at h
  split at h
  · rename_i id hid
    exact Or.inl ⟨id, hid, h⟩
  · rename_i hnone
    obtain ⟨_, -, rfl⟩ := Option.map_eq_some_iff.mp h
    exact Or.inr ⟨hnone, rfl, rfl, rfl⟩

/-! ### Speedboat commits -/

theorem committedSpeedboatFiles_spec {files : FileSetPayload} (hwf : latest.speedboatFiles.Wf)
    (hsound : info.sizes.length = info.files.length) (h : committedSpeedboatFiles latest info = some files) :
    files.Wf ∧ latest.speedboatPaths ⊆ files.filePaths := by
  unfold committedSpeedboatFiles at h
  cases hspeedboat : latest.speedboatMetadata with
  | none =>
    rw [hspeedboat] at h
    obtain ⟨schema, -, rfl⟩ := Option.map_eq_some_iff.mp h
    constructor
    · refine ⟨hsound, by simp, ?_⟩
      intro i hi
      obtain ⟨-, -, rfl⟩ := mem_map.mp hi
      exact Nat.one_pos
    · simp [speedboatPaths, speedboatFiles, hspeedboat,
        FileSetPayload.new]
  | some existing =>
    rw [hspeedboat] at h
    obtain ⟨payload, hpayload, hmerge⟩ := Option.bind_eq_some_iff.mp h
    have hfiles : latest.speedboatFiles = existing.files := by
      rw [speedboatFiles, hspeedboat]
    rw [hfiles] at hwf
    obtain ⟨merged, hmerged, hmergedWf, hmem⟩ := hwf.merge (SpeedboatCommitTableInfo.wf_asFileSetPayload hpayload)
    rw [hmerge] at hmerged
    cases hmerged
    refine ⟨hmergedWf, fun path hpath => (hmem path).mpr (Or.inl ?_)⟩
    rwa [speedboatPaths, hfiles] at hpath

theorem speedboatCommitTypeCommit_spec (h : s.speedboatCommitTypeCommit info = some s') :
    ∃ latest files schema extensionMetadata, s.latestCheckpoint info.tableName info.schema = some latest ∧
      committedSpeedboatFiles latest info = some files ∧ committedSchema latest info = some schema ∧
      Commits s.catalog s'.catalog info.tableName { latest with
        tableName := info.tableName, originalCheckpointId := none, checkpointId := s.nextId.1
        speedboatMetadata := some ⟨files⟩, schema, extensionMetadata } := by
  simp only [speedboatCommitTypeCommit, bind_eq_some] at h
  obtain ⟨latest, hlatest, files, hfiles, schema, hschema, ⟨c, sf, icf⟩, hfill, s1, hwork, hcompact⟩ := h
  obtain ⟨em, hc⟩ := tryFillCheckpointExtensionMetadata_eq hfill
  obtain ⟨hkeeps, hawaits⟩ := fillExtensionWorkItem_keeps hwork
  obtain ⟨hkeeps', hwaiting⟩ := (compactionOps_maybeCreateCompactionWorkItem hcompact).keeps
  refine ⟨latest, files, schema, em, hlatest, hfiles, hschema, ?_, fun id hid => ?_⟩
  · have haliases : s1.tableAliases = s.tableAliases := hkeeps.aliases
    have hset : s1.setLatestCommittedCheckpoint info.tableName none s.nextId.1 =
        s1.setLatestCommittedCheckpointId none (s.realTableName info.tableName) s.nextId.1 := by
      simp [setLatestCommittedCheckpoint, realTableName, haliases]
    rw [hset] at hkeeps'
    rw [← hc]
    exact (hkeeps.setLatest none (s.realTableName info.tableName) s.nextId.1).trans hkeeps'
  · exact hawaits id ((awaits_congr hwaiting).mp hid)

theorem speedboatCommitTypeDelete_spec (h : s.speedboatCommitTypeDelete info = some s') :
    ∃ latest extensionMetadata, s.latestCheckpoint info.tableName (some .minimal) = some latest ∧
      Commits s.catalog s'.catalog info.tableName { latest with
        tableName := info.tableName, originalCheckpointId := none, checkpointId := s.nextId.1
        deletesMetadata := some ⟨latest.deletePaths ++ info.files⟩, extensionMetadata } := by
  simp only [speedboatCommitTypeDelete, bind_eq_some] at h
  obtain ⟨latest, hlatest, ⟨c, sf, icf⟩, hfill, heq⟩ := h
  obtain ⟨em, hc⟩ := tryFillCheckpointExtensionMetadata_eq hfill
  cases heq
  refine ⟨latest, em, hlatest, ?_⟩
  rw [← hc]
  exact ⟨Keeps.refl _, fun id => Or.inl⟩

theorem speedboatCommitTableInfo_effect
    (h : s.speedboatCommitTableInfo info = some s') : InfoEffect s.catalog info s'.catalog := by
  unfold speedboatCommitTableInfo at h
  split at h
  · obtain ⟨latest, files, schema, em, hlatest, hfiles, -, hcommits⟩ := speedboatCommitTypeCommit_spec h
    exact ⟨latest, _, latestCheckpoint_base hlatest, hcommits, rfl, Or.inl ⟨files, hfiles, rfl, rfl⟩⟩
  · split at h
    · obtain ⟨latest, em, hlatest, hcommits⟩ := speedboatCommitTypeDelete_spec h
      exact ⟨latest, _, latestCheckpoint_base hlatest, hcommits, rfl, Or.inr ⟨rfl, rfl⟩⟩
    · cases h

theorem speedboatCommitTableInfos_effect {infos : List SpeedboatCommitTableInfo}
    (h : infos.foldlM speedboatCommitTableInfo s = some s') :
    InfosEffect s.catalog infos s'.catalog := by
  induction infos generalizing s with
  | nil =>
    cases h
    exact .nil _
  | cons info infos ih =>
    simp only [foldlM_cons, bind_eq_some] at h
    obtain ⟨mid, hinfo, hrest⟩ := h
    exact .cons (speedboatCommitTableInfo_effect hinfo) (ih hrest)

theorem catalog_queuePublicationRequests (tableNames : List String) :
    (tableNames.foldl (fun s tableName =>
      s.queuePublicationRequest defaultMetadataNamespace tableName) s).catalog = s.catalog := by
  induction tableNames generalizing s with
  | nil => rfl
  | cons tableName tableNames ih => exact ih

theorem speedboatCommit_effect {commit : SpeedboatCommit} (h : s.speedboatCommit commit = some s') :
    InfosEffect s.catalog commit.typeFiles s'.catalog := by
  unfold speedboatCommit at h
  split at h
  · cases h
  simp only [bind_eq_some] at h
  obtain ⟨mid, hinfos, heq⟩ := h
  cases heq
  rw [catalog_queuePublicationRequests]
  exact speedboatCommitTableInfos_effect hinfos

/-! ### Iceberg commits -/

/-- A checkpoint without the files that some compactions have consumed. -/
def Consumes (cat : CheckpointCatalog) (compactions : List String) (checkpoint c : TableMetadataCheckpoint) : Prop :=
  c.icebergMetadata = checkpoint.icebergMetadata ∧
    c.speedboatPaths = checkpoint.speedboatPaths.filter (· ∉ cat.consumedSpeedboatFiles compactions) ∧
    c.deletePaths = checkpoint.deletePaths.filter (· ∉ cat.consumedDeleteFiles compactions) ∧
    (checkpoint.speedboatFiles.Wf → c.speedboatFiles.Wf)

theorem handleCompaction_spec {c : TableMetadataCheckpoint} (h : s.handleCompaction compaction checkpoint = some c) :
    Consumes s.catalog [compaction] checkpoint c := by
  simp only [handleCompaction, bind_eq_some] at h
  obtain ⟨⟨table, commit⟩, hlookup, speedboat, hspeedboat, heq⟩ := h
  cases heq
  have hspeed : s.catalog.consumedSpeedboatFiles [compaction] = commit.removedSpeedboatFiles := by
    simp [consumedSpeedboatFiles, catalog, hlookup]
  have hdelete : s.catalog.consumedDeleteFiles [compaction] = commit.removedDeleteFiles := by
    simp [consumedDeleteFiles, catalog, hlookup]
  unfold Consumes
  rw [hspeed, hdelete]
  unfold speedboatPaths speedboatFiles deletePaths
  refine ⟨rfl, ?_⟩
  rw [and_left_comm]
  refine ⟨by cases checkpoint.deletesMetadata <;> rfl, ?_⟩
  cases hold : checkpoint.speedboatMetadata with
  | none =>
    rw [hold] at hspeedboat
    cases hspeedboat
    exact ⟨rfl, fun _ => FileSetPayload.wf_new⟩
  | some old =>
    rw [hold] at hspeedboat
    obtain ⟨files, hfiles, rfl⟩ := Option.map_eq_some_iff.mp hspeedboat
    refine ⟨FileSetPayload.remove_filePaths hfiles, fun hwf => ?_⟩
    obtain ⟨r, hr, hrwf, -⟩ := hwf.remove commit.removedSpeedboatFiles
    rw [hfiles] at hr
    cases hr
    exact hrwf

theorem handleCompactions_spec {c : TableMetadataCheckpoint} (h : s.handleCompactions compactions checkpoint = some c) :
    Consumes s.catalog compactions checkpoint c := by
  induction compactions generalizing checkpoint with
  | nil =>
    cases h
    simp [Consumes, consumedSpeedboatFiles, consumedDeleteFiles]
  | cons compaction compactions ih =>
    simp only [handleCompactions, foldlM_cons, bind_eq_some] at h
    obtain ⟨mid, hmid, hrest⟩ := h
    obtain ⟨hiceberg, hspeed, hdelete, hwf⟩ := handleCompaction_spec hmid
    obtain ⟨hiceberg', hspeed', hdelete', hwf'⟩ := ih hrest
    refine ⟨hiceberg'.trans hiceberg, ?_, ?_, fun hc => hwf' (hwf hc)⟩
    · rw [hspeed', hspeed, filter_filter]
      simp [consumedSpeedboatFiles, Bool.and_comm]
    · rw [hdelete', hdelete, filter_filter]
      simp [consumedDeleteFiles, Bool.and_comm]

theorem icebergCommit_spec {commit : IcebergCommit} (h : s.icebergCommit tableName commit = some s') :
    ∃ latest schema pre extensionMetadata,
      s.latestCheckpoint tableName (some commit.metadata.tableSchema) = some latest ∧
      latest.schema.mergeFrom commit.metadata.tableSchema = some schema ∧
      s.handleCompactions commit.compactions { latest with
        tableName, originalCheckpointId := none, checkpointId := s.nextId.1
        icebergMetadata := some commit.metadata, schema } = some pre ∧
      Commits s.catalog s'.catalog tableName { pre with extensionMetadata } := by
  simp only [icebergCommit, bind_eq_some] at h
  obtain ⟨latest, hlatest, schema, hschema, pre, hpre, ⟨c, sf, icf⟩, hfill, s1, hwork, s2, hfinish, heq⟩ := h
  cases heq
  obtain ⟨em, hc⟩ := tryFillCheckpointExtensionMetadata_eq hfill
  obtain ⟨hkeeps, hawaits⟩ := fillExtensionWorkItem_keeps hwork
  obtain ⟨hkeeps', hwaiting⟩ := (compactionOps_finishCompactions hfinish).keeps
  refine ⟨latest, schema, pre, em, hlatest, hschema, hpre, ?_⟩
  rw [← hc]
  exact ⟨hkeeps.trans hkeeps', fun id hid => hawaits id ((awaits_congr hwaiting).mp hid)⟩

theorem icebergCommit_effect {commit : IcebergCommit} (h : s.icebergCommit tableName commit = some s') :
    IcebergEffect s.catalog tableName commit s'.catalog := by
  obtain ⟨latest, schema, pre, em, hlatest, -, hpre, hcommits⟩ := icebergCommit_spec h
  obtain ⟨hiceberg, hspeed, hdelete, hwf⟩ := handleCompactions_spec hpre
  exact ⟨latest, _, latestCheckpoint_base hlatest, hcommits, hiceberg, hspeed, hdelete, hwf⟩

/-! ### Extension commits -/

theorem awaits_stopAwaiting
    (h : (s.stopAwaiting tableName extension checkpointId).catalog.Awaits id) : s.catalog.Awaits id := by
  obtain ⟨key, waiting, hlookup, hmem⟩ := h
  simp only [catalog, stopAwaiting, lookup_modify] at hlookup
  split at hlookup
  · obtain ⟨old, hold, rfl⟩ := Option.map_eq_some_iff.mp hlookup
    exact ⟨_, old, hold, mem_of_mem_filter hmem⟩
  · exact ⟨key, waiting, hlookup, hmem⟩

variable {commit : ExtensionCommit}

theorem addCoverageFor_effect {covered : Option String}
    (h : s.addCoverageFor tableName checkpointId commit = some (covered, s')) :
    ExtensionEffect s.catalog s'.catalog ∧ (∀ id ∈ covered, id = checkpointId) := by
  simp only [addCoverageFor, bind_eq_some] at h
  obtain ⟨checkpoint, hcheckpoint, full, -, heq⟩ := h
  have hstored : ExtensionEffect s.catalog
      (s.storeCheckpoint tableName checkpointId (checkpoint.addCoverage commit)).catalog := by
    refine ⟨rfl, rfl, rfl, rfl, rfl, ?_, fun _ => Or.inl, fun _ hid => hid⟩
    intro key c' hc'
    simp only [catalog, storeCheckpoint, lookup_insert_eq] at hc'
    split at hc'
    · rename_i hkey
      cases hc'
      exact ⟨checkpoint, _, hkey ▸ hcheckpoint, rfl⟩
    · exact ⟨c', _, hc', rfl⟩
  cases full with
  | true =>
    cases heq
    refine ⟨hstored.trans ⟨rfl, rfl, rfl, rfl, rfl, fun _ c hc => ⟨c, _, hc, rfl⟩, fun _ => Or.inl,
      fun id hid => awaits_stopAwaiting hid⟩, ?_⟩
    rintro id ⟨⟩
    rfl
  | false =>
    cases heq
    exact ⟨hstored, by rintro id ⟨⟩⟩

theorem addCoverageForAll_effect {checkpointIds covered : List String}
    (h : s.addCoverageForAll tableName commit checkpointIds = some (covered, s')) :
    ExtensionEffect s.catalog s'.catalog ∧ covered ⊆ checkpointIds := by
  refine foldlM_invariant (P := fun p => ExtensionEffect s.catalog p.2.catalog ∧ p.1 ⊆ checkpointIds)
    (fun id hid p p' hp hone => ?_) ⟨ExtensionEffect.refl _, nil_subset _⟩ h
  obtain ⟨⟨o, mid⟩, hcover, rfl⟩ := Option.map_eq_some_iff.mp hone
  obtain ⟨heffect, ho⟩ := addCoverageFor_effect hcover
  refine ⟨hp.1.trans heffect, append_subset.mpr ⟨hp.2, fun x hx => ?_⟩⟩
  rw [ho x (Option.mem_toList.mp hx)]
  exact hid

theorem maxText_eq_some_iff {ids : List String} : maxText ids = some id ↔ id ∈ ids ∧ ∀ other ∈ ids, other ≤ id := by
  have hmax : maxText ids = ids.max? := by cases ids <;> rfl
  rw [hmax]
  exact max?_eq_some_iff

theorem catalog_applyExtensionCommitToWorkItem (h : s.applyExtensionCommitToWorkItem tableName commit = some s') :
    s'.catalog = s.catalog := by
  unfold applyExtensionCommitToWorkItem at h
  split at h
  · cases h
    rfl
  · simp only [bind_eq_some] at h
    obtain ⟨_, -, _, -, heq⟩ := h
    cases heq
    rfl

theorem extensionCommit_effect (h : s.extensionCommit tableName commit = some s') : ExtensionEffect s.catalog s'.catalog := by
  simp only [extensionCommit, bind_eq_some] at h
  obtain ⟨⟨covered, s1⟩, hcover, maxId, hmax, s2, happly, heq⟩ := h
  cases heq
  obtain ⟨heffect, hsub⟩ := addCoverageForAll_effect hcover
  have hwaits : s.catalog.Awaits maxId :=
    ⟨_, exists_of_getD (p := fun ids => maxId ∈ ids) (hsub (maxText_eq_some_iff.mp hmax).1) not_mem_nil⟩
  have hcat : s2.catalog = s1.catalog := (catalog_applyExtensionCommitToWorkItem happly).trans rfl
  have hfrontier : ExtensionEffect s.catalog (s2.advanceExtensionFrontier tableName maxId).catalog := by
    have hbase : ExtensionEffect s.catalog s2.catalog := hcat ▸ heffect
    have hset : ExtensionEffect s.catalog (s2.setLatestCommittedCheckpoint tableName (some "es") maxId).catalog := by
      refine ⟨hbase.ids, hbase.drawn, hbase.aliases, ?_, hbase.published, hbase.checkpoints, ?_, hbase.awaits⟩
      · change (s2.latestCommittedCheckpointId.insert (some "es") _).lookup none = _
        rw [lookup_insert_eq, if_neg (by decide)]
        exact hbase.latest
      intro id hid
      have hid' : (s2.catalog.setLatest (some "es") (s2.realTableName tableName) maxId).IsLatest id := hid
      rcases isLatest_setLatest hid' with hid | rfl
      · exact hbase.isLatest id hid
      · exact Or.inr hwaits
    unfold advanceExtensionFrontier
    split
    · split
      · exact hset
      · exact hbase
    · exact hset
  exact hfrontier

/-! ### Added checkpoints -/

theorem storeAddedCheckpoint_effect (metadata : TableMetadataCheckpoint) :
    AddEffect s.catalog metadata (s.storeAddedCheckpoint metadata).catalog := by
  unfold storeAddedCheckpoint
  dsimp only
  by_cases ht : metadata.tableName ∈ s.tables
  all_goals
    simp only [ht, if_true, if_false]
    split
    · exact ⟨rfl, le_rfl, rfl, Or.inl rfl, fun _ => Or.inl, fun _ => Or.inl⟩
    · exact ⟨rfl, le_rfl, rfl, Or.inr rfl, fun _ => Or.inl, fun _ => Or.inl⟩

theorem addCheckpoint_effect (h : s.addCheckpoint metadata = some s') : AddEffect s.catalog metadata s'.catalog := by
  simp only [addCheckpoint, bind_eq_some] at h
  obtain ⟨s1, hext, heq⟩ := h
  cases heq
  have hbase := (s.storeAddedCheckpoint_effect metadata).setLatest none metadata.tableName
  unfold addCheckpointExtensions at hext
  split at hext
  · cases hext
    exact List.foldlRecOn _ _ (motive := fun t : EphemeralServiceImpl => AddEffect s.catalog metadata t.catalog)
      hbase fun t h extension _ => h.setLatest (some extension) metadata.tableName
  obtain ⟨hkeeps, hawaits⟩ := fillExtensionWorkItem_keeps hext
  refine ⟨hkeeps.ids.trans hbase.ids, hbase.drawn.trans hkeeps.drawn,
    hkeeps.published.trans hbase.published, ?_, ?_, ?_⟩
  · exact hbase.checkpoints.imp hkeeps.checkpoints.trans hkeeps.checkpoints.trans
  · intro id hid
    exact hbase.isLatest id (hkeeps.isLatest.mp hid)
  · intro id hid
    exact (hawaits id hid).elim (hbase.awaits id) Or.inr

/-! ### Publications -/

theorem cutoverOps_effect (h : CutoverOps c touched s s') : PublishEffect s.catalog s'.catalog := by
  induction h with
  | refl => exact PublishEffect.refl _
  | tail _ hop ih =>
    refine ih.trans ?_
    cases hop with
    | view hview => exact .of_eq (catalog_of_viewOps (.single hview))
    | planTarget =>
      refine ⟨rfl, rfl, rfl, rfl, rfl, rfl, ?_⟩
      rintro id' ⟨t, e, hid'⟩
      simp only [catalog, setPublishedCheckpoint, lookup_insert_eq] at hid'
      exact Or.inl ⟨t, e, hid'⟩
    | promote _ _ he hlatest =>
      obtain ⟨checkpoints, hext, hid⟩ := Option.bind_eq_some_iff.mp hlatest
      refine ⟨rfl, rfl, rfl, rfl, rfl, rfl, ?_⟩
      rintro id' ⟨t, e, hid'⟩
      simp only [catalog, setPublishedCheckpoint, lookup_insert_eq] at hid'
      split at hid'
      · cases hid'
        exact Or.inr ⟨_, checkpoints, _, he, hext, hid⟩
      · exact Or.inl ⟨t, e, hid'⟩
    | dropRequest => exact .of_eq rfl

theorem coordinationStep_effect (h : CoordinationStep s c s') : PublishEffect s.catalog s'.catalog := by
  cases h with
  | ops hops => exact cutoverOps_effect hops
  | heartbeat _ heq | activation _ heq | readiness _ heq =>
    rw [heq]
    exact .of_eq rfl

theorem commitOps_effect (hcommit : c.call.isCommit = false)
    (halias : ∀ t a, c.call ≠ .addAlias t a ∧ c.call ≠ .removeAlias t a) (h : CommitOps c s s') :
    PublishEffect s.catalog s'.catalog := by
  have hnot : ¬ c.call.isCommit := by simp [hcommit]
  induction h with
  | refl => exact PublishEffect.refl _
  | tail _ hop ih =>
    refine ih.trans ?_
    cases hop with
    | setLatest _ _ _ hmem => exact absurd (ServiceCall.isCommit_of_mem_frontiers hmem) hnot
    | aliases _ _ hcall => exact (hcall.elim (halias _ _).1 (halias _ _).2).elim
    | lessWork hcall | recent _ hcall =>
      rw [hcall] at hcommit
      cases hcommit
    | note | claimExtensions | claimCompactions | claimCleanups | cleanup | report | describe | queue =>
      exact ⟨rfl, rfl, rfl, rfl, rfl, rfl, fun _ => Or.inl⟩
    | _ => exact (hnot (by assumption)).elim

/-- **What a call can do to the catalog.** -/
theorem step_catalogEffect (h : s.step c = some s') : CatalogEffect s.catalog c.call s'.catalog := by
  cases hkind : c.call.isCoordination with
  | true => exact .publish (coordinationStep_effect (step_coordinationStep hkind h))
  | false =>
    have hops := step_commitOps hkind h
    obtain ⟨now, call⟩ := c
    cases call with
    | speedboatCommit commit =>
      rw [step_speedboatCommit] at h
      exact .speedboat (speedboatCommit_effect h)
    | icebergCommit tableName commit =>
      rw [step_icebergCommit] at h
      exact .iceberg (icebergCommit_effect h)
    | extensionCommit tableName commit =>
      rw [step_extensionCommit] at h
      exact .extension (extensionCommit_effect h)
    | addCheckpoint metadata =>
      rw [step_addCheckpoint] at h
      exact .add (addCheckpoint_effect h)
    | addAlias tableName aliasName =>
      cases h
      exact .addAlias rfl
    | removeAlias tableName aliasName =>
      cases h
      exact .removeAlias rfl
    | _ => exact .publish (commitOps_effect rfl (fun _ _ => ⟨ServiceCall.noConfusion, ServiceCall.noConfusion⟩) hops)

end EphemeralServiceImpl

end PowdrrEngine
