import PowdrrEngine.ContractApply
import PowdrrEngine.ContractSchemaMerge
import PowdrrEngine.ServiceEffects

/-! Two engines make checkpoints from the same commits: the in-memory service, and `clone_and_apply` as
the store over DynamoDB folds it over the commits of a table. They agree on the files, the delete files
and the schema as long as a path stands for one file and the commits stay on the ground both cover; a
forward simulation carries that through every sequence of commits. -/

namespace PowdrrEngine

open TableMetadataCheckpoint List Run FileSetPayload

/-! ### The folded engine -/

/-- A commit to one table, as both engines get it. -/
inductive EngineCommit where
  | speedboat (commit : SpeedboatCommit)
  | iceberg (commit : IcebergCommit)
  | compaction (commit : CompactionCommit)

/-- A table whose checkpoint is made by `clone_and_apply`, with the compactions reported so far. -/
structure AppliedTable where
  ids : IdInstance
  drawn : Nat
  checkpoint : TableMetadataCheckpoint
  compactions : Dict String CompactionCommit

namespace AppliedTable

/-- The table as `create_table_helper` makes it. -/
def new (ids : IdInstance) (tableName : String) : AppliedTable := ⟨ids, 1, .new tableName (ids.text 0) .minimal, ∅⟩

/-- The table with a checkpoint under the next id. -/
def replace (a : AppliedTable) (applied : Option (TableMetadataCheckpoint × Bool)) : Option AppliedTable :=
  applied.map fun (checkpoint, _) => { a with checkpoint, drawn := a.drawn + 1 }

/-- The table after one more commit. -/
def step (a : AppliedTable) : EngineCommit → Option AppliedTable
  | .speedboat commit =>
    a.replace (a.checkpoint.cloneAndApply (a.ids.text a.drawn) [commit] [] [] a.compactions)
  | .iceberg commit =>
    a.replace (a.checkpoint.cloneAndApply (a.ids.text a.drawn) [] [commit] [] a.compactions)
  | .compaction commit =>
    some { a with compactions := a.compactions.insert commit.compactionId commit }

end AppliedTable

/-! ### What the engines agree on -/

/-- What a checkpoint says about its table, ids and extension files left aside. -/
structure TableView where
  icebergMetadata : Option IcebergMetadata
  speedboatFiles : FileSetPayload
  deletePaths : List String
  schema : PowdrrSchema

namespace TableMetadataCheckpoint

def view (c : TableMetadataCheckpoint) : TableView := ⟨c.icebergMetadata, c.speedboatFiles, c.deletePaths, c.schema⟩

/-- Two checkpoints have the same files with their sizes and schemas, the same delete files and the same
schema. -/
structure Agrees (c d : TableMetadataCheckpoint) : Prop where
  speedboat : ∀ file, c.speedboatFiles.Holds file ↔ d.speedboatFiles.Holds file
  iceberg : ∀ file, c.icebergFiles.Holds file ↔ d.icebergFiles.Holds file
  deletes : ∀ path, path ∈ c.deletePaths ↔ path ∈ d.deletePaths
  schema : c.schema = d.schema

end TableMetadataCheckpoint

/-- The same files, known by their paths; everything else is equal. -/
structure TableView.Same (known : String → FileDescriptor) (v w : TableView) : Prop where
  iceberg : v.icebergMetadata = w.icebergMetadata
  left : v.speedboatFiles.Known known
  right : w.speedboatFiles.Known known
  paths : ∀ path, path ∈ v.speedboatFiles.filePaths ↔ path ∈ w.speedboatFiles.filePaths
  deletes : v.deletePaths = w.deletePaths
  schema : v.schema = w.schema

theorem TableView.Same.agrees {known : String → FileDescriptor} {c d : TableMetadataCheckpoint}
    (h : TableView.Same known c.view d.view) : c.Agrees d where
  speedboat file := by
    have hleft : c.speedboatFiles.Holds file ↔ _ := h.left.holds_iff
    have hright : d.speedboatFiles.Holds file ↔ _ := h.right.holds_iff
    rw [h.paths] at hleft
    exact hleft.trans hright.symm
  iceberg file := by
    have hiceberg : c.icebergMetadata = d.icebergMetadata := h.iceberg
    rw [icebergFiles, icebergFiles, hiceberg]
  deletes path := by
    have hdeletes : c.deletePaths = d.deletePaths := h.deletes
    rw [hdeletes]
  schema := h.schema

section

variable (known : String → FileDescriptor) (tableName : String)

structure SpeedboatCommitTableInfo.Mirrors (info : SpeedboatCommitTableInfo) : Prop where
  files : info.files = info.segmentFiles.map Prod.fst
  sizes : info.sizes = info.segmentFiles.map Prod.snd
  known : ∀ schema ∈ info.schema, schema.Distinct ∧ ∀ file ∈ info.segmentFiles, known file.1 = ⟨file.1, schema, file.2⟩

/-- The ground that both engines cover: the commit type is not `"compact"`, segments and files say the
same, a path stands for one file, and no delete files come with an iceberg commit. -/
def EngineCommit.Comparable : EngineCommit → Prop
  | .speedboat commit => ∀ info ∈ commit.typeFiles, info.tableName = tableName ∧
      info.commitType ≠ "compact" ∧ (info.commitType = "delete" ∨ info.Mirrors known)
  | .iceberg commit => commit.metadata.tableSchema.Distinct ∧ ∀ info ∈ commit.deletesTableInfo, info.files = []
  | .compaction _ => True

end

/-! ### Commits of files -/

section

variable {known : String → FileDescriptor}

theorem SpeedboatCommitTableInfo.asFileTuples_payload (schema : PowdrrSchema) (files : List (String × Nat)) :
    FileSetPayload.fileTuples [schema] (files.map Prod.fst) (files.map Prod.snd) (files.map fun _ => 0) =
      some (files.map fun file => ⟨file.1, schema, file.2⟩) := by
  induction files with
  | nil => rfl
  | cons file files ih =>
    simp only [map_cons, FileSetPayload.fileTuples, ih]
    rfl

theorem SpeedboatCommitTableInfo.Mirrors.known_payload {info : SpeedboatCommitTableInfo}
    (h : info.Mirrors known) {payload : FileSetPayload} (hpayload : info.asFileSetPayload = some payload) :
    payload.Known known := by
  refine ⟨wf_asFileSetPayload hpayload, fun file hfile => ?_⟩
  obtain ⟨schema, hschema, rfl⟩ := Option.map_eq_some_iff.mp hpayload
  obtain ⟨files, hfiles, hmem⟩ := hfile
  rw [FileSetPayload.asFileTuples, asFileTuples_payload] at hfiles
  cases hfiles
  obtain ⟨segment, hsegment, rfl⟩ := mem_map.mp hmem
  exact ((h.known schema hschema).2 segment hsegment).symm

namespace EphemeralServiceImpl

variable {s s' : EphemeralServiceImpl} {tableName : String} {info : SpeedboatCommitTableInfo}
  {c latest : TableMetadataCheckpoint} {compactions : List String} {schema : PowdrrSchema}
  {c' : TableMetadataCheckpoint}

def engineStep (tableName : String) (s : EphemeralServiceImpl) : EngineCommit → Option EphemeralServiceImpl
  | .speedboat commit => s.speedboatCommit commit
  | .iceberg commit => s.icebergCommit tableName commit
  | .compaction commit => some (s.compactionCommit tableName commit)

section

variable (hc : s.latestCheckpoint tableName (some .minimal) = some c)
  (hlatest : s.latestCheckpoint tableName (some schema) = some latest)

include hc hlatest

theorem latestCheckpoint_minimal : latest = c ∨ c.schema = .minimal ∧ latest = { c with schema } := by
  unfold latestCheckpoint at hc hlatest
  cases hid : s.getLatestMaterializedCheckpointSync tableName none with
  | some id =>
    rw [hid] at hc hlatest
    exact Or.inl (Option.some.inj (hlatest.symm.trans hc))
  | none =>
    rw [hid] at hc hlatest
    cases hc
    cases hlatest
    exact Or.inr ⟨rfl, rfl⟩

theorem mergeFrom_latest {merged : PowdrrSchema} (hschema : schema.Distinct)
    (hmerged : latest.schema.mergeFrom schema = some merged) : c.schema.mergeFrom schema = some merged := by
  rcases latestCheckpoint_minimal hc hlatest with rfl | ⟨hminimal, rfl⟩
  · exact hmerged
  · rw [hminimal, PowdrrSchema.mergeFrom_minimal]
    exact (PowdrrSchema.mergeFrom_self hschema).symm.trans hmerged

theorem view_latest : latest.view = { c.view with schema := latest.schema } := by
  rcases latestCheckpoint_minimal hc hlatest with rfl | ⟨-, rfl⟩ <;> rfl

end

theorem committedSpeedboatFiles_known {files payload : FileSetPayload} (hmirrors : info.Mirrors known)
    (hlatest : latest.speedboatFiles.Known known) (hpayload : info.asFileSetPayload = some payload)
    (h : committedSpeedboatFiles latest info = some files) :
    files.Known known ∧ ∀ path, path ∈ files.filePaths ↔
      path ∈ latest.speedboatFiles.filePaths ∨ path ∈ payload.filePaths := by
  have hknown := hmirrors.known_payload hpayload
  unfold committedSpeedboatFiles at h
  cases hspeedboat : latest.speedboatMetadata with
  | none =>
    rw [hspeedboat] at h
    obtain ⟨schema, hschema, rfl⟩ := Option.map_eq_some_iff.mp h
    have hsame : payload = ⟨info.files, [schema], info.files.map fun _ => 0, info.sizes⟩ := by
      rw [SpeedboatCommitTableInfo.asFileSetPayload, hschema] at hpayload
      rw [hmirrors.files, hmirrors.sizes, map_map]
      exact (Option.some.inj hpayload).symm
    subst hsame
    have hnone : latest.speedboatFiles = .new := by
      rw [speedboatFiles, hspeedboat]
    rw [hnone]
    exact ⟨hknown, fun path => by simp [FileSetPayload.new]⟩
  | some existing =>
    have hfiles : latest.speedboatFiles = existing.files := by
      rw [speedboatFiles, hspeedboat]
    rw [hspeedboat] at h
    dsimp only at h
    rw [hpayload, Option.bind_some, ← hfiles] at h
    obtain ⟨r, hr, -, hpaths⟩ := hlatest.wf.merge hknown.wf
    cases h.symm.trans hr
    exact ⟨hlatest.merge hknown hr, hpaths⟩

/-! ### Steps -/

/-- The service and a checkpoint of the folded engine say the same about the table. -/
structure Follows (known : String → FileDescriptor) (tableName : String)
    (lookup : Dict String CompactionCommit) (s : EphemeralServiceImpl) (d : TableMetadataCheckpoint) :
    Prop where
  name : s.realTableName tableName = tableName
  compactions : ∀ id, (s.compactions.lookup id).map Prod.snd = lookup.lookup id
  latest : ∃ c, s.latestCheckpoint tableName (some .minimal) = some c ∧ TableView.Same known c.view d.view

variable {lookup : Dict String CompactionCommit} {d d' : TableMetadataCheckpoint}

section

variable (h : Follows known tableName lookup s d)

include h

theorem Follows.of_view (hview : d'.view = d.view) : Follows known tableName lookup s d' :=
  ⟨h.name, h.compactions, hview ▸ h.latest⟩

theorem Follows.of_catalog (hcatalog : s'.catalog = s.catalog) : Follows known tableName lookup s' d := by
  cases s
  cases s'
  obtain ⟨rfl, rfl, rfl, rfl, rfl, rfl, rfl, rfl⟩ := CheckpointCatalog.mk.inj hcatalog
  exact ⟨h.name, h.compactions, h.latest⟩

theorem Follows.of_commits (hcommits : CheckpointCatalog.Commits s.catalog s'.catalog tableName c)
    (hsame : TableView.Same known c.view d'.view) : Follows known tableName lookup s' d' := by
  have haliases : s'.tableAliases = s.tableAliases := hcommits.keeps.aliases
  have hreal : s'.realTableName tableName = tableName := by
    rw [realTableName, haliases]
    exact h.name
  have hcompactions : s'.compactions = s.compactions := hcommits.keeps.compactions
  refine ⟨hreal, fun id => by rw [hcompactions, h.compactions], c, ?_, hsame⟩
  have hlatest : s'.latestCommittedCheckpointId = _ := hcommits.keeps.latest
  have hcheckpoints : s'.checkpoints = _ := hcommits.keeps.checkpoints
  have hid : s'.getLatestMaterializedCheckpointSync tableName none = some s.nextId.1 := by
    have hname : s.tableAliases.getD tableName tableName = tableName := h.name
    rw [getLatestMaterializedCheckpointSync, hreal, hlatest]
    change AList.lookup tableName (AList.insert (s.tableAliases.getD tableName tableName) _ _) = _
    rw [hname, AList.lookup_insert]
    rfl
  rw [latestCheckpoint, hid]
  dsimp only
  rw [getCheckpointSync, hcheckpoints]
  exact AList.lookup_insert _

theorem Follows.commit (htable : info.tableName = tableName) (hmirrors : info.Mirrors known)
    (htype : info.commitType = "commit") (hstep : s.speedboatCommitTypeCommit info = some s') :
    ∃ d', d.applyTableInfo info = some d' ∧ Follows known tableName lookup s' d' := by
  subst htable
  obtain ⟨latest, files, schema, em, hlatest, hfiles, hmerged, hcommits⟩ := speedboatCommitTypeCommit_spec hstep
  obtain ⟨c, hc, hsame⟩ := h.latest
  obtain ⟨payload, hpayload⟩ : ∃ payload, info.asFileSetPayload = some payload := by
    unfold committedSpeedboatFiles at hfiles
    split at hfiles
    · obtain ⟨infoSchema, hinfo, -⟩ := Option.map_eq_some_iff.mp hfiles
      exact ⟨_, congrArg (Option.map _) hinfo⟩
    · obtain ⟨payload, hpayload, -⟩ := Option.bind_eq_some_iff.mp hfiles
      exact ⟨payload, hpayload⟩
  obtain ⟨infoSchema, hinfo, -⟩ := Option.map_eq_some_iff.mp hpayload
  rw [hinfo] at hlatest
  have hview := view_latest hc hlatest
  have hleft : latest.speedboatFiles = c.speedboatFiles := congrArg TableView.speedboatFiles hview
  have hknown := hmirrors.known_payload hpayload
  obtain ⟨hfilesKnown, hpaths⟩ := committedSpeedboatFiles_known hmirrors (hleft ▸ hsame.left) hpayload hfiles
  have hschema : d.schema.mergeFrom infoSchema = some schema := by
    rw [committedSchema, hinfo] at hmerged
    rw [← show c.schema = d.schema from hsame.schema]
    exact mergeFrom_latest hc hlatest (hmirrors.known infoSchema hinfo).1 hmerged
  have hschema' : d.mergedSchema info = some schema := by
    rw [mergedSchema, hinfo]
    exact hschema
  obtain ⟨r, hr, -, hrpaths⟩ := hsame.right.wf.mergeInplace hknown.wf
  have hr' : d.speedboatFiles.mergeInplace payload = some r := hr
  refine ⟨{ d with speedboatMetadata := some ⟨r⟩, schema }, ?_, h.of_commits hcommits ?_⟩
  · unfold applyTableInfo
    rw [if_neg (by rw [htype]; decide), if_pos (Or.inl htype)]
    simp [hpayload, hr', hschema']
  refine ⟨?_, hfilesKnown, hsame.right.mergeInplace hknown hr, fun path => ?_, ?_, rfl⟩
  · exact (congrArg TableView.icebergMetadata hview).trans hsame.iceberg
  · have hbefore : path ∈ c.speedboatFiles.filePaths ↔ path ∈ d.view.speedboatFiles.filePaths := hsame.paths path
    have hunion : path ∈ latest.speedboatFiles.filePaths ∨ path ∈ payload.filePaths ↔ path ∈ r.filePaths := by
      rw [hrpaths, hleft, hbefore]
    exact (hpaths path).trans hunion
  · exact (congrArg TableView.deletePaths hview).trans hsame.deletes

theorem Follows.delete (htable : info.tableName = tableName) (htype : info.commitType = "delete")
    (hstep : s.speedboatCommitTypeDelete info = some s') :
    ∃ d', d.applyTableInfo info = some d' ∧ Follows known tableName lookup s' d' := by
  subst htable
  obtain ⟨latest, em, hlatest, hcommits⟩ := speedboatCommitTypeDelete_spec hstep
  obtain ⟨c, hc, hsame⟩ := h.latest
  cases hlatest.symm.trans hc
  refine ⟨_, if_pos htype, h.of_commits hcommits ?_⟩
  have hdeletes : latest.deletePaths = d.deletePaths := hsame.deletes
  refine ⟨hsame.iceberg, hsame.left, hsame.right, hsame.paths, ?_, hsame.schema⟩
  change latest.deletePaths ++ info.files = d.deletePaths ++ info.files
  rw [hdeletes]

theorem Follows.tableInfo
    (hinfo : info.tableName = tableName ∧ info.commitType ≠ "compact" ∧ (info.commitType = "delete" ∨ info.Mirrors known))
    (hstep : s.speedboatCommitTableInfo info = some s') :
    ∃ d', d.applyTableInfo info = some d' ∧ Follows known tableName lookup s' d' := by
  obtain ⟨htable, hcompact, hkind⟩ := hinfo
  unfold speedboatCommitTableInfo at hstep
  split at hstep
  · rename_i htype
    have hcommit := htype.resolve_right hcompact
    refine h.commit htable (hkind.resolve_left fun hdelete => ?_) hcommit hstep
    rw [hcommit] at hdelete
    exact absurd hdelete (by decide)
  · split at hstep
    · rename_i htype
      exact h.delete htable htype hstep
    · cases hstep

theorem Follows.speedboat {commit : SpeedboatCommit}
    (hcomparable : (EngineCommit.speedboat commit).Comparable known tableName)
    (hstep : s.speedboatCommit commit = some s') :
    ∃ d', d.applySpeedboat commit lookup = some d' ∧ Follows known tableName lookup s' d' := by
  unfold speedboatCommit at hstep
  split at hstep
  · cases hstep
  rename_i hcompaction
  obtain ⟨mid, hinfos, heq⟩ := Option.bind_eq_some_iff.mp hstep
  cases heq
  -- the metadata that `apply_speedboat` makes first is empty
  have hstart : Follows known tableName lookup s { d with
      speedboatMetadata := some (d.speedboatMetadata.getD ⟨.new⟩)
      deletesMetadata := some (d.deletesMetadata.getD ⟨[]⟩) } := by
    refine h.of_view ?_
    simp only [view, speedboatFiles, deletePaths]
    cases d.speedboatMetadata <;> cases d.deletesMetadata <;> rfl
  obtain ⟨d', hd', hfollows⟩ := exec_forward (fun _ _ _ _ hR => hR.tableInfo) hstart hcomparable
    ((exec_eq_foldlM _ _).trans hinfos)
  rw [exec_eq_foldlM] at hd'
  refine ⟨d', ?_, hfollows.of_catalog (catalog_queuePublicationRequests _)⟩
  simp [applySpeedboat, hcompaction, hd']

end

theorem handleCompactions_known (h : s.handleCompactions compactions c = some c')
    (hknown : c.speedboatFiles.Known known) :
    c'.speedboatFiles.Known known ∧ c'.schema = c.schema := by
  refine foldlM_invariant (P := fun m => m.speedboatFiles.Known known ∧ m.schema = c.schema) ?_ ⟨hknown, rfl⟩ h
  rintro compaction - m m' ⟨hm, hschema⟩ hstep
  simp only [handleCompaction, bind_eq_some] at hstep
  obtain ⟨commit, -, speedboat, hspeedboat, heq⟩ := hstep
  cases heq
  refine ⟨?_, hschema⟩
  unfold speedboatFiles at hm ⊢
  cases hmetadata : m.speedboatMetadata with
  | none =>
    rw [hmetadata] at hspeedboat
    cases hspeedboat
    exact known_new
  | some existing =>
    rw [hmetadata] at hspeedboat hm
    obtain ⟨files, hfiles, rfl⟩ := Option.map_eq_some_iff.mp hspeedboat
    exact hm.remove hfiles

theorem getRemovedFiles_of_handleCompactions (hlookup : ∀ id, (s.compactions.lookup id).map Prod.snd = lookup.lookup id)
    (h : s.handleCompactions compactions c = some c') :
    getRemovedFiles compactions lookup =
      some (s.catalog.consumedSpeedboatFiles compactions, s.catalog.consumedDeleteFiles compactions) := by
  induction compactions generalizing c with
  | nil => rfl
  | cons compaction compactions ih =>
    simp only [handleCompactions, foldlM_cons, bind_eq_some] at h
    obtain ⟨mid, hmid, hrest⟩ := h
    simp only [handleCompaction, bind_eq_some] at hmid
    obtain ⟨⟨table, commit⟩, hcommit, -⟩ := hmid
    have hfound : lookup.lookup compaction = some commit := by
      rw [← hlookup, hcommit]
      rfl
    obtain ⟨commits, hcommits, heq⟩ := Option.bind_eq_some_iff.mp (ih hrest)
    simp only [Option.some.injEq, Prod.mk.injEq] at heq
    have hcompactions : s.catalog.compactions.lookup compaction = some (table, commit) := hcommit
    simp only [getRemovedFiles, mapM_cons, Option.bind_eq_bind, hfound,
      Option.bind_some, hcommits, CheckpointCatalog.consumedSpeedboatFiles,
      CheckpointCatalog.consumedDeleteFiles, flatMap_cons, hcompactions, Option.map_some,
      Option.getD_some, Option.pure_def]
    rw [heq.1, heq.2]
    rfl

theorem applyCompactions_spec {removedSpeedboat removedDeletes : List String}
    (hremoved : getRemovedFiles compactions lookup =
      some (removedSpeedboat, removedDeletes)) (hwf : d.speedboatFiles.Wf) :
    ∃ d', d.applyCompactions compactions lookup = some d' ∧
      d.speedboatFiles.remove removedSpeedboat = some d'.speedboatFiles ∧
      d'.deletePaths = d.deletePaths.filter (· ∉ removedDeletes) ∧
      d'.icebergMetadata = d.icebergMetadata ∧ d'.schema = d.schema := by
  obtain ⟨r, hr, -, -⟩ := hwf.remove removedSpeedboat
  obtain ⟨speedboat, hspeedboat, hfiles⟩ : ∃ speedboat, d.speedboatWithout removedSpeedboat = some speedboat ∧
      d.speedboatFiles.remove removedSpeedboat =
        some ({ d with speedboatMetadata := speedboat } : TableMetadataCheckpoint).speedboatFiles := by
    unfold speedboatFiles speedboatWithout at *
    cases hmetadata : d.speedboatMetadata with
    | none => exact ⟨none, rfl, rfl⟩
    | some existing =>
      rw [hmetadata] at hr
      refine ⟨some ⟨r⟩, ?_, hr⟩
      dsimp only at hr ⊢
      rw [hr, Option.map_some]
  let applied : TableMetadataCheckpoint := { d with
    speedboatMetadata := speedboat
    deletesMetadata := d.deletesMetadata.map fun deletes =>
      ⟨deletes.files.filter fun file => file ∉ removedDeletes⟩
    extensionMetadata := d.extensionMetadata.mapValues fun _ metadata =>
      metadata.retain fun key _ => key ∉ removedSpeedboat }
  refine ⟨applied, ?_, hfiles, ?_, rfl, rfl⟩
  · simp only [applyCompactions, hremoved, hspeedboat, Option.bind_eq_bind, Option.bind_some]
    rfl
  · unfold deletePaths
    cases hdeletes : d.deletesMetadata with
    | none => simp only [applied, hdeletes, Option.map_none, Option.getD_none, filter_nil]
    | some deletes => simp only [applied, hdeletes, Option.map_some, Option.getD_some]

theorem Follows.iceberg (h : Follows known tableName lookup s d) {commit : IcebergCommit}
    (hcomparable : (EngineCommit.iceberg commit).Comparable known tableName)
    (hstep : s.icebergCommit tableName commit = some s') :
    ∃ d', d.applyIceberg commit lookup = some d' ∧ Follows known tableName lookup s' d' := by
  obtain ⟨hdistinct, hnoDeletes⟩ := hcomparable
  obtain ⟨latest, schema, pre, em, hlatest, hmerged, hpre, hcommits⟩ := icebergCommit_spec hstep
  obtain ⟨c, hc, hsame⟩ := h.latest
  have hview := view_latest hc hlatest
  have hleft : latest.speedboatFiles = c.speedboatFiles := congrArg TableView.speedboatFiles hview
  have hdeletes : latest.deletePaths = d.deletePaths := (congrArg TableView.deletePaths hview).trans hsame.deletes
  have hschema : d.schema.mergeFrom commit.metadata.tableSchema = some schema := by
    rw [← show c.schema = d.schema from hsame.schema]
    exact mergeFrom_latest hc hlatest hdistinct hmerged
  have hremoved := getRemovedFiles_of_handleCompactions h.compactions hpre
  obtain ⟨hiceberg, hspeed, hdelete, -⟩ := handleCompactions_spec hpre
  have hlatestKnown : latest.speedboatFiles.Known known := hleft ▸ hsame.left
  obtain ⟨hknown, hpreSchema⟩ := handleCompactions_known hpre hlatestKnown
  have hkept : (d.icebergDeletes commit) = d.deletesMetadata ∨ d.icebergDeletes commit = some ⟨d.deletePaths⟩ := by
    unfold icebergDeletes
    cases hinfo : commit.deletesTableInfo with
    | none => exact Or.inl rfl
    | some info => exact Or.inr (by dsimp only; rw [hnoDeletes info hinfo, append_nil])
  let next := { d with
    icebergMetadata := some commit.metadata, deletesMetadata := d.icebergDeletes commit, schema }
  have hnextDeletes : next.deletePaths = d.deletePaths := by
    change ((d.icebergDeletes commit).map (·.files)).getD [] = d.deletePaths
    rcases hkept with heq | heq <;> rw [heq] <;> rfl
  have hright : next.speedboatFiles.Known known := hsame.right
  obtain ⟨d', hd', hfiles, hdeletes', hiceberg', hschema'⟩ := applyCompactions_spec hremoved hright.wf
  have hend : TableView.Same known pre.view d'.view := by
    refine ⟨hiceberg.trans hiceberg'.symm, hknown, hright.remove hfiles, fun path => ?_, ?_,
      hpreSchema.trans hschema'.symm⟩
    · have hbefore : path ∈ c.speedboatFiles.filePaths ↔ path ∈ next.speedboatFiles.filePaths := hsame.paths path
      change path ∈ pre.speedboatPaths ↔ path ∈ d'.speedboatFiles.filePaths
      rw [hspeed, remove_filePaths hfiles, mem_filter, mem_filter, ← hbefore, ← hleft]
      rfl
    · change pre.deletePaths = d'.deletePaths
      rw [hdelete, hdeletes', hnextDeletes, ← hdeletes]
      rfl
  refine ⟨d'.retainCurrentExtensionMetadata, ?_, h.of_commits hcommits hend⟩
  simp only [applyIceberg, hschema, Option.bind_eq_bind, Option.bind_some]
  rw [hd', Option.bind_some]

theorem Follows.step {a : AppliedTable} {commit : EngineCommit}
    (h : Follows known tableName a.compactions s a.checkpoint)
    (hcomparable : commit.Comparable known tableName) (hstep : s.engineStep tableName commit = some s') :
    ∃ a', a.step commit = some a' ∧ Follows known tableName a'.compactions s' a'.checkpoint := by
  have hcopy : Follows known tableName a.compactions s
      { a.checkpoint with checkpointId := a.ids.text a.drawn }.retainCurrentExtensionMetadata :=
    h.of_view rfl
  cases commit with
  | speedboat commit =>
    obtain ⟨d', hd', hfollows⟩ := hcopy.speedboat hcomparable hstep
    refine ⟨{ a with checkpoint := d', drawn := a.drawn + 1 }, ?_, hfollows⟩
    simp only [AppliedTable.step, cloneAndApply, foldlM_cons, foldlM_nil, Option.bind_eq_bind, Option.pure_def,
      foldl_nil, hd', Option.bind_some]
    rfl
  | iceberg commit =>
    obtain ⟨d', hd', hfollows⟩ := hcopy.iceberg hcomparable hstep
    refine ⟨{ a with checkpoint := d', drawn := a.drawn + 1 }, ?_, hfollows⟩
    simp only [AppliedTable.step, cloneAndApply, foldlM_cons, foldlM_nil, Option.bind_eq_bind, Option.pure_def,
      foldl_nil, hd', Option.bind_some]
    rfl
  | compaction commit =>
    cases hstep
    refine ⟨_, rfl, h.name, fun id => ?_, h.latest⟩
    simp only [compactionCommit, Dict.lookup_insert_eq]
    split
    · rfl
    · exact h.compactions id

/-- **The engines agree** on the ground that both cover: over every sequence of commits to a table that
the service takes, folding `clone_and_apply` goes through as well, and the latest checkpoints have the
same files, delete files and schema. -/
theorem engines_agree_of_exec {mode : CompactionMode} {ids ids' : IdInstance} {commits : List EngineCommit}
    (hexec : Run.exec (engineStep tableName) (new mode ids) commits = some s)
    (hcomparable : ∀ commit ∈ commits, commit.Comparable known tableName) :
    ∃ a c, Run.exec AppliedTable.step (.new ids' tableName) commits = some a ∧
      s.latestCheckpoint tableName (some .minimal) = some c ∧ c.Agrees a.checkpoint := by
  have hstart : Follows known tableName (AppliedTable.new ids' tableName).compactions (new mode ids)
      (AppliedTable.new ids' tableName).checkpoint :=
    ⟨rfl, fun _ => rfl, _, rfl, rfl, known_new, known_new, fun _ => Iff.rfl, rfl, rfl⟩
  obtain ⟨a, ha, hend⟩ := exec_forward (R := fun s a => Follows known tableName
    (AppliedTable.compactions a) s a.checkpoint) (fun _ _ _ _ hR => hR.step) hstart hcomparable hexec
  obtain ⟨c, hc, hsame⟩ := hend.latest
  exact ⟨a, c, ha, hc, hsame.agrees⟩

/-! ### Two sequences -/

def eventsSchema : PowdrrSchema := ⟨[⟨"_id", .string⟩]⟩

def eventsMetadata : IcebergMetadata :=
  { tableSchema := eventsSchema, snapshotId := none, files := .single "part-1.parquet" 10 eventsSchema }

def compactedEvents : List EngineCommit :=
  [.speedboat ⟨[.fromSegments "commit" "events" [⟨"1", "segment", 10⟩] (some eventsSchema)], none⟩,
    .speedboat ⟨[.fromSegments "delete" "events" [⟨"2", "deletes", 1⟩] none], none⟩,
    .compaction ⟨["segment"], ["deletes"], "part-1.parquet", "3", "1", []⟩,
    .iceberg ⟨eventsMetadata, none, ["3"]⟩]

theorem comparable_compactedEvents : ∀ commit ∈ compactedEvents,
    commit.Comparable (fun path => ⟨path, eventsSchema, 10⟩) "events" := by
  have hdistinct : eventsSchema.Distinct := ⟨by decide, trivial, trivial⟩
  simp only [compactedEvents, forall_mem_cons, not_mem_nil, false_implies, implies_true, and_true,
    EngineCommit.Comparable, true_and]
  refine ⟨⟨rfl, by decide, Or.inr ⟨rfl, rfl, ?_⟩⟩, ⟨rfl, by decide, Or.inl rfl⟩, hdistinct, nofun⟩
  rintro schema hschema
  cases hschema
  refine ⟨hdistinct, ?_⟩
  decide

theorem engines_agree_of_exec_compacted :
    ∃ s a c, Run.exec (engineStep "events") (new (.async (some 1)) .counting) compactedEvents = some s ∧
      Run.exec AppliedTable.step (.new .counting "events") compactedEvents = some a ∧
      s.latestCheckpoint "events" (some .minimal) = some c ∧ c.icebergPaths = ["part-1.parquet"] ∧
      c.Agrees a.checkpoint := by
  obtain ⟨s, hs, hpaths⟩ : ∃ s, Run.exec (engineStep "events") (new (.async (some 1)) .counting)
      compactedEvents = some s ∧ ∀ c, s.latestCheckpoint "events" (some .minimal) = some c →
        c.icebergPaths = ["part-1.parquet"] := by decide +kernel
  obtain ⟨a, c, ha, hc, hagrees⟩ := engines_agree_of_exec hs comparable_compactedEvents
  exact ⟨s, a, c, hs, ha, hc, hpaths c hc, hagrees⟩

/-- The deletes that a compaction could not apply come with its iceberg commit. -/
def remainingDeletes : List EngineCommit :=
  [.iceberg ⟨eventsMetadata, some (.fromSegments "delete" "events" [⟨"2", "deletes", 1⟩] none), []⟩]

/-- A commit of the type `"compact"`. -/
def compactCommit : List EngineCommit :=
  [.speedboat ⟨[.fromSegments "compact" "events" [⟨"1", "segment", 10⟩] (some eventsSchema)], none⟩]

/-- The service drops the delete files of an iceberg commit, and takes a commit type that the folded
engine does not know. -/
theorem engines_disagree :
    (∃ s a c, Run.exec (engineStep "events") (new .disabled .counting) remainingDeletes = some s ∧
      Run.exec AppliedTable.step (.new .counting "events") remainingDeletes = some a ∧
      s.latestCheckpoint "events" (some .minimal) = some c ∧ ¬ c.Agrees a.checkpoint) ∧
    (Run.exec (engineStep "events") (new .disabled .counting) compactCommit).isSome ∧
    Run.exec AppliedTable.step (.new .counting "events") compactCommit = none := by
  refine ⟨?_, by decide +kernel, by decide +kernel⟩
  obtain ⟨s, hs, a, ha, c, hc, hnone, hsome⟩ :
      ∃ s, Run.exec (engineStep "events") (new .disabled .counting) remainingDeletes = some s ∧
      ∃ a, Run.exec AppliedTable.step (.new .counting "events") remainingDeletes = some a ∧
      ∃ c, s.latestCheckpoint "events" (some .minimal) = some c ∧
        c.deletePaths = [] ∧ a.checkpoint.deletePaths = ["deletes"] := by decide +kernel
  refine ⟨s, a, c, hs, ha, hc, fun hagrees => ?_⟩
  have hmem := hagrees.deletes "deletes"
  rw [hnone, hsome] at hmem
  exact absurd (hmem.mpr mem_cons_self) not_mem_nil

end EphemeralServiceImpl

end

end PowdrrEngine
