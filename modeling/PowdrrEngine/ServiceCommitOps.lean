import PowdrrEngine.ServiceCutoverOps

/-! Calls outside the coordination interface as sequences of elementary changes, as `ServiceCutoverOps`
has it for coordination requests. Each change is named here with the condition under which it happens;
what every elementary change does or leaves alone, every such call does or leaves alone. -/

namespace PowdrrEngine

open Run ServiceCall Option List

namespace EphemeralServiceImpl

variable {tableName : String}

/-- The elementary changes a call other than a coordination request makes. -/
inductive CommitOp (c : TimedCall) : EphemeralServiceImpl → EphemeralServiceImpl → Prop
  | draw (s) : c.call.isCommit → CommitOp c s s.nextId.2
  | store (s tableName id checkpoint) : c.call.isCommit → CommitOp c s (s.storeCheckpoint tableName id checkpoint)
  | setLatest {extension} (s tableName id) : extension ∈ c.call.frontiers →
      CommitOp c s (s.setLatestCommittedCheckpointId extension tableName id)
  | startWork (s tableName) {item : ExtensionWorkItem} : c.call.isCommit → item.id = s.nextId.1 →
      CommitOp c s (s.nextId.2.storeExtensionTracker "es" tableName ⟨item, none⟩)
  | moreWork {s tableName old tracker} : c.call.isCommit →
      ((s.extensionWorkItems.lookup "es").bind fun items => items.lookup tableName) = some old →
      tracker.workItem.id = old.workItem.id → tracker.leaseExpiresAtMs = old.leaseExpiresAtMs →
      CommitOp c s (s.storeExtensionTracker "es" tableName tracker)
  | lessWork {s tableName commit tracker} {item : ExtensionWorkItem} : c.call = .extensionCommit tableName commit →
      ((s.extensionWorkItems.lookup commit.extension).bind fun items => items.lookup tableName) = some tracker →
      item.id = tracker.workItem.id →
      CommitOp c s (s.storeExtensionTracker commit.extension tableName ⟨item, none⟩)
  | await (s tableName extension id) : c.call.isCommit → CommitOp c s (s.awaitExtension tableName extension id)
  | stopAwaiting (s tableName extension id) : c.call.isCommit → CommitOp c s (s.stopAwaiting tableName extension id)
  | note (s tableName ids) : CommitOp c s (s.noteNotCompacted tableName ids)
  | startCompaction (s tableName) {item : CompactionWorkItem} : c.call.isCommit → item.id = s.nextId.1 →
      CommitOp c s (s.nextId.2.storeCompactionTracker tableName ⟨item, none⟩)
  | finishCompaction (s tableName files) : c.call.isCommit → CommitOp c s { s.nextId.2 with
      compactionWorkItems := s.compactionWorkItems.erase tableName
      cleanupWorkItems := s.cleanupWorkItems ++ [⟨⟨s.nextId.1, tableName, files⟩, none⟩] }
  | claimExtensions {s items} : s.extensionWorkItems.lookup "es" = some items →
      CommitOp c s { s with extensionWorkItems := s.extensionWorkItems.insert "es" (items.mapValues
        fun _ tracker => if tracker.workItem.hasWork && leaseIsAvailable c.now tracker.leaseExpiresAtMs then
          { tracker with leaseExpiresAtMs := some (claimLeaseExpiresAtMs c.now) } else tracker) }
  | claimCompactions (s) : CommitOp c s (s.getCompactionWorkItems c.now).2
  | claimCleanups (s) : CommitOp c s (s.getCleanupWorkItems c.now).2
  | cleanup (s commit) : CommitOp c s (s.cleanupCommit commit)
  | report (s compactions) : CommitOp c s { s with compactions }
  | describe (s tables tableTemplates pipelines lifetimePolicies) :
      CommitOp c s { s with tables, tableTemplates, pipelines, lifetimePolicies }
  | queue (s tableName) : CommitOp c s (s.queuePublicationRequest defaultMetadataNamespace tableName)
  | recent {tableName commit} (s) : c.call = .extensionCommit tableName commit →
      CommitOp c s (s.addRecentExtensionFiles tableName commit)
  | aliases {tableName aliasName} (s tableAliases) :
      c.call = .addAlias tableName aliasName ∨ c.call = .removeAlias tableName aliasName →
      CommitOp c s { s with tableAliases }

/-- The elementary changes among these that a commit makes to the compaction work. -/
inductive CompactionOp : EphemeralServiceImpl → EphemeralServiceImpl → Prop
  | note (s tableName ids) : CompactionOp s (s.noteNotCompacted tableName ids)
  | start (s tableName) {item : CompactionWorkItem} : item.id = s.nextId.1 →
      CompactionOp s (s.nextId.2.storeCompactionTracker tableName ⟨item, none⟩)
  | finish (s tableName files) : CompactionOp s { s.nextId.2 with
      compactionWorkItems := s.compactionWorkItems.erase tableName
      cleanupWorkItems := s.cleanupWorkItems ++ [⟨⟨s.nextId.1, tableName, files⟩, none⟩] }

abbrev CompactionOps := Relation.ReflTransGen CompactionOp

/-- Any number of elementary changes. -/
abbrev CommitOps (c : TimedCall) := Relation.ReflTransGen (CommitOp c)

variable {c : TimedCall} {s s' : EphemeralServiceImpl}

/-! ### Commits -/

theorem compactionOps_maybeCreateCompactionWorkItem {checkpoint : TableMetadataCheckpoint}
    (h : s.maybeCreateCompactionWorkItem checkpoint = some s') : CompactionOps s s' := by
  unfold maybeCreateCompactionWorkItem at h
  dsimp only at h
  split at h
  · cases h
    exact .single (.note _ _ _)
  split at h
  · cases h
    exact .single (.note _ _ _)
  split at h
  · obtain ⟨item, hitem, heq⟩ := bind_eq_some_iff.mp h
    cases heq
    obtain ⟨_, -, rfl⟩ := map_eq_some_iff.mp hitem
    exact .tail (.single (.start s _ rfl)) (.note _ _ _)
  · cases h
    exact .single (.note _ _ _)

theorem compactionOps_finishCompaction {compaction : String} (h : s.finishCompaction compaction = some s') :
    CompactionOps s s' := by
  simp only [finishCompaction, replaceAndDeleteCheckpoints, bind_eq_some] at h
  obtain ⟨⟨item, mid⟩, ⟨⟨tableName, commit⟩, -, tracker, -, hreplace⟩, heq⟩ := h
  split at hreplace
  · cases hreplace
    cases heq
    exact .single (.finish s tableName _)
  · cases hreplace

theorem compactionOps_finishCompactions {compactions : List String}
    (h : compactions.foldlM finishCompaction s = some s') : CompactionOps s s' :=
  foldlM_invariant (P := CompactionOps s)
    (fun _ _ _ _ hs hone => hs.trans (compactionOps_finishCompaction hone)) .refl h

section

variable (hcommit : c.call.isCommit)

include hcommit

theorem CompactionOps.commitOps (h : CompactionOps s s') : CommitOps c s s' := by
  refine Relation.ReflTransGen.mono (fun a b hop => ?_) _ _ h
  cases hop with
  | note => exact .note _ _ _
  | start _ hid => exact .startCompaction _ _ hcommit hid
  | finish => exact .finishCompaction _ _ _ hcommit

theorem commitOps_fillExtensionWorkItem {tableName extension id : String} {schema : PowdrrSchema}
    {speedboatFiles icebergFiles : FileSetPayload}
    (h : s.fillExtensionWorkItem tableName extension id schema speedboatFiles icebergFiles = some s') :
    CommitOps c s s' := by
  unfold fillExtensionWorkItem at h
  split at h
  · cases h
    exact .refl
  simp only [bind_eq_some] at h
  obtain ⟨items, hitems, tracker, htracker, heq⟩ := h
  cases heq
  refine .tail (.single ?_) (.await _ _ _ _ hcommit)
  cases hold : items.lookup tableName with
  | some old =>
    have hmem : tableName ∈ items := AList.lookup_isSome.mp (by rw [hold]; rfl)
    simp only [hold, extensionTracker, bind_eq_some] at htracker
    obtain ⟨_, -, _, -, heq⟩ := htracker
    cases heq
    have hheld : (s.extensionWorkItems.lookup "es").bind (·.lookup tableName) = some old := by
      rw [hitems, bind_some, hold]
    rw [drawTrackerId, if_pos hmem]
    exact .moreWork hcommit hheld rfl rfl
  | none =>
    have hmem : tableName ∉ items := AList.lookup_eq_none.mp hold
    rw [hold] at htracker
    have hdraw : s.drawTrackerId items tableName = s.nextId := if_neg hmem
    rw [hdraw] at htracker ⊢
    cases htracker
    exact .startWork s tableName hcommit rfl

theorem commitOps_storeNext (tableName : String) (checkpoint : TableMetadataCheckpoint) :
    CommitOps c s (s.nextId.2.storeCheckpoint tableName s.nextId.1 checkpoint) :=
  .tail (.single (.draw s hcommit)) (.store _ _ _ _ hcommit)

theorem commitOps_addCoverageForAll {tableName : String} {commit : ExtensionCommit}
    {checkpointIds covered : List String}
    (h : s.addCoverageForAll tableName commit checkpointIds = some (covered, s')) : CommitOps c s s' := by
  refine foldlM_invariant (P := fun p => CommitOps c s p.2) (fun id _ p p' hp hcover => ?_) .refl h
  obtain ⟨⟨o, mid⟩, hmid, rfl⟩ := map_eq_some_iff.mp hcover
  simp only [addCoverageFor, bind_eq_some] at hmid
  obtain ⟨checkpoint, -, full, -, heq⟩ := hmid
  have hstore : CommitOps c s (p.2.storeCheckpoint tableName id (checkpoint.addCoverage commit)) :=
    hp.tail (.store _ _ _ _ hcommit)
  cases full <;> cases heq
  · exact hstore
  · exact hstore.tail (.stopAwaiting _ _ _ _ hcommit)

end

theorem commitOps_speedboatCommitTableInfo (hnone : none ∈ c.call.frontiers) {info : SpeedboatCommitTableInfo}
    (h : s.speedboatCommitTableInfo info = some s') : CommitOps c s s' := by
  have hcommit := isCommit_of_mem_frontiers hnone
  unfold speedboatCommitTableInfo at h
  split at h
  · simp only [speedboatCommitTypeCommit, bind_eq_some] at h
    obtain ⟨latest, -, files, -, schema, -, ⟨checkpoint, sf, icf⟩, -, mid, hwork, hcompact⟩ := h
    have hfill := (commitOps_storeNext hcommit info.tableName checkpoint).trans
      (commitOps_fillExtensionWorkItem hcommit hwork)
    exact (hfill.tail (.setLatest _ _ _ hnone)).trans
      ((compactionOps_maybeCreateCompactionWorkItem hcompact).commitOps hcommit)
  split at h
  · simp only [speedboatCommitTypeDelete, bind_eq_some] at h
    obtain ⟨latest, -, ⟨checkpoint, sf, icf⟩, -, heq⟩ := h
    cases heq
    exact (commitOps_storeNext hcommit info.tableName checkpoint).tail (.setLatest _ _ _ hnone)
  · cases h

theorem commitOps_speedboatCommit (hnone : none ∈ c.call.frontiers) {commit : SpeedboatCommit}
    (h : s.speedboatCommit commit = some s') : CommitOps c s s' := by
  unfold speedboatCommit at h
  split at h
  · cases h
  obtain ⟨mid, hmid, heq⟩ := bind_eq_some_iff.mp h
  cases heq
  have hinfos : CommitOps c s mid := foldlM_invariant (P := CommitOps c s)
    (fun _ _ _ _ hs hinfo => hs.trans (commitOps_speedboatCommitTableInfo hnone hinfo)) .refl hmid
  exact List.foldlRecOn _ _ (motive := CommitOps c s) hinfos fun _ hs _ _ => hs.tail (.queue _ _)

theorem commitOps_icebergCommit (hnone : none ∈ c.call.frontiers) {commit : IcebergCommit}
    (h : s.icebergCommit tableName commit = some s') : CommitOps c s s' := by
  have hcommit := isCommit_of_mem_frontiers hnone
  simp only [icebergCommit, bind_eq_some] at h
  obtain ⟨latest, -, schema, -, pre, -, ⟨checkpoint, sf, icf⟩, -, mid, hwork, mid', hfinish, heq⟩ := h
  cases heq
  have hfill := (commitOps_storeNext hcommit tableName checkpoint).trans
    ((commitOps_fillExtensionWorkItem hcommit hwork).head (.setLatest _ _ _ hnone))
  exact (hfill.trans ((compactionOps_finishCompactions hfinish).commitOps hcommit)).tail (.queue _ _)

theorem commitOps_extensionCommit {commit : ExtensionCommit} (hcall : c.call = .extensionCommit tableName commit)
    (h : s.extensionCommit tableName commit = some s') : CommitOps c s s' := by
  have hes : some "es" ∈ c.call.frontiers := by
    rw [hcall]
    exact mem_cons_self
  have hcommit := isCommit_of_mem_frontiers hes
  simp only [extensionCommit, bind_eq_some] at h
  obtain ⟨⟨covered, s1⟩, hcover, maxId, -, s2, happly, heq⟩ := h
  cases heq
  have hrecent := (commitOps_addCoverageForAll hcommit hcover).tail (.recent s1 hcall)
  have happlied : CommitOps c s s2 := by
    unfold applyExtensionCommitToWorkItem at happly
    split at happly
    · cases happly
      exact hrecent
    rename_i tracker htracker
    simp only [bind_eq_some] at happly
    obtain ⟨_, -, _, -, heq⟩ := happly
    cases heq
    exact hrecent.tail (.lessWork hcall htracker rfl)
  refine .tail (happlied.trans ?_) (.queue _ _)
  unfold advanceExtensionFrontier
  split
  · split
    · exact .single (.setLatest _ _ _ hes)
    · exact .refl
  · exact .single (.setLatest _ _ _ hes)

theorem commitOps_addCheckpoint {metadata : TableMetadataCheckpoint} (hcall : c.call = .addCheckpoint metadata)
    (h : s.addCheckpoint metadata = some s') : CommitOps c s s' := by
  have hfrontiers : c.call.frontiers = none :: metadata.extensionMetadata.keys.map some := by
    rw [hcall]
    rfl
  have hnone : none ∈ c.call.frontiers := by
    rw [hfrontiers]
    exact mem_cons_self
  have hcommit := isCommit_of_mem_frontiers hnone
  simp only [addCheckpoint, bind_eq_some] at h
  obtain ⟨mid, hext, heq⟩ := h
  cases heq
  have hstore : CommitOps c s (s.storeAddedCheckpoint metadata) := by
    unfold storeAddedCheckpoint
    dsimp only
    split
    · split
      · exact .refl
      · exact .single (.store _ _ _ _ hcommit)
    have htable : CommitOps c s
        { s with tables := s.tables.insert metadata.tableName { name := metadata.tableName } } :=
      .single (.describe s _ s.tableTemplates s.pipelines s.lifetimePolicies)
    split
    · exact htable
    · exact htable.tail (.store _ _ _ _ hcommit)
  have hlatest := hstore.tail (.setLatest _ metadata.tableName metadata.checkpointId hnone)
  refine .tail ?_ (.queue _ _)
  unfold addCheckpointExtensions at hext
  split at hext
  · cases hext
    refine List.foldlRecOn _ _ (motive := CommitOps c s) hlatest fun _ hs extension hmem => ?_
    exact hs.tail (.setLatest _ _ _ (hfrontiers ▸ mem_cons_of_mem _ (mem_map_of_mem hmem)))
  · exact hlatest.trans (commitOps_fillExtensionWorkItem hcommit hext)

/-! ### Calls -/

theorem commitOps_createTable (s : EphemeralServiceImpl) (request : CreateTable) :
    CommitOps c s (s.createTable request) := by
  let tables := s.tables.insert request.name (.fromCreateTable request)
  have htables : CommitOps c s { s with tables } :=
    .single (.describe s _ s.tableTemplates s.pipelines s.lifetimePolicies)
  unfold createTable
  split
  · exact htables
  · exact htables.tail (.note { s with tables } request.name [])

/-- **What a call outside the coordination interface does.** -/
theorem step_commitOps (hcall : c.call.isCoordination = false) (h : s.step c = some s') : CommitOps c s s' := by
  obtain ⟨now, call⟩ := c
  cases call with
  | speedboatCommit commit =>
    rw [step_speedboatCommit] at h
    exact commitOps_speedboatCommit mem_cons_self h
  | icebergCommit tableName commit =>
    rw [step_icebergCommit] at h
    exact commitOps_icebergCommit mem_cons_self h
  | extensionCommit tableName commit =>
    rw [step_extensionCommit] at h
    exact commitOps_extensionCommit rfl h
  | addCheckpoint metadata =>
    rw [step_addCheckpoint] at h
    exact commitOps_addCheckpoint rfl h
  | createPipeline name pipeline =>
    simp only [step, answer, createPipeline] at h
    split at h <;> cases h
    exact .single (.describe s s.tables s.tableTemplates _ s.lifetimePolicies)
  | createLifetimePolicy name policy =>
    simp only [step, answer, createLifetimePolicy] at h
    split at h <;> cases h
    exact .single (.describe s s.tables s.tableTemplates s.pipelines _)
  | getExtensionWorkItems extensionType =>
    cases h
    change CommitOps _ s (s.getExtensionWorkItems now extensionType).2
    unfold getExtensionWorkItems
    split
    · rename_i hes
      subst hes
      split
      · exact .refl
      · rename_i items hitems
        exact .single (.claimExtensions hitems)
    · exact .refl
  | createTable request | upsertTableMetadata request =>
    cases h
    exact s.commitOps_createTable request
  | compactionCommit tableName commit =>
    cases h
    exact .single (.report _ _)
  | cleanupCommit commit =>
    cases h
    exact .single (.cleanup _ _)
  | getCompactionWorkItems =>
    cases h
    exact .single (.claimCompactions s)
  | getCleanupWorkItems =>
    cases h
    exact .single (.claimCleanups s)
  | queueCheckpointPublication request =>
    cases h
    exact .single (.queue _ _)
  | createTableTemplate name template =>
    cases h
    exact .single (.describe s s.tables _ s.pipelines s.lifetimePolicies)
  | addAlias tableName aliasName =>
    cases h
    exact .single (.aliases _ _ (Or.inl rfl))
  | removeAlias tableName aliasName =>
    cases h
    exact .single (.aliases _ _ (Or.inr rfl))
  | updateAllCheckpoints | planCheckpointCutover | getCheckpointCutoverState | heartbeatServingNode
  | recordServingNodeActivation | recordArtifactReadiness => cases hcall
  | _ =>
    cases h
    exact .refl

/-! ### What stays -/

theorem CommitOps.frame {α : Type} (f : EphemeralServiceImpl → α)
    (hop : ∀ s s', CommitOp c s s' → f s' = f s) (h : CommitOps c s s') : f s' = f s := by
  induction h with
  | refl => rfl
  | tail _ hlast ih => exact (hop _ _ hlast).trans ih

theorem CommitOps.recent_eq (hcall : ∀ tableName commit, c.call ≠ .extensionCommit tableName commit)
    (h : CommitOps c s s') : s'.recentFileExtensionMetadata = s.recentFileExtensionMetadata := by
  refine h.frame _ fun a b hop => ?_
  cases hop with
  | recent _ heq => exact absurd heq (hcall _ _)
  | _ => rfl

end EphemeralServiceImpl

end PowdrrEngine
