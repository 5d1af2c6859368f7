import PowdrrEngine.ServiceCoverageSteps
import PowdrrEngine.SafetyPromotion

/-! Selectors share their maps. Everything the service keeps for a table and an extension lives in maps
whose keys are texts glued from the names, so a call that is addressed to one selector leaves another
alone exactly as far as the glued texts differ. Two names that glue to the same text are easy to find:
the bar and the underscore are allowed in names. -/

namespace PowdrrEngine

open Option AList Function

/-- What the service keeps for a selector. A stored checkpoint is its table's; of its extension files
those of the selector's extension count. -/
@[ext]
structure SelectorRecords where
  published : PublishedCheckpointRole → Option String
  epoch : Option CutoverEpoch
  view : Option CutoverMembershipView
  activations : Option (Dict String ServingNodeActivationAck)
  readiness : Option (Dict ArtifactClass ArtifactReadinessAck)
  checkpoint : String → Option (TableMetadataCheckpoint × Option ExtensionFileMetadata)
  coverage : String → Option (List ExtensionFile)

namespace EphemeralServiceImpl

variable {s s' : EphemeralServiceImpl} {tableName tableName₁ : String} {extension extension₁ : Option String}
  {commit : ExtensionCommit} {key t : String} {c : TimedCall} {r : CoverageRecords}

def selectorRecords (s : EphemeralServiceImpl) (tableName : String) (extension : Option String) : SelectorRecords where
  published role := s.getPublishedCheckpointSync role tableName extension
  epoch := s.checkpointCutoverEpochs.lookup (selectorGroupKey tableName extension)
  view := s.getCutoverMembershipView tableName extension
  activations := s.servingNodeActivations.lookup (selectorGroupKey tableName extension)
  readiness := s.artifactReadinessAcks.lookup (selectorGroupKey tableName extension)
  checkpoint id := (s.getCheckpointSync tableName id).map fun c =>
    ({ c with extensionMetadata := ∅ }, extension.bind fun e => c.extensionMetadata.lookup e)
  coverage file := extension.bind fun e => s.recentFileExtensionMetadata.lookup (recentFileKey tableName e file)

/-- The selectors a call is addressed to: the one it names; every one of the tables that a commit or an
added checkpoint is for; those an update works on. -/
def Addresses (s : EphemeralServiceImpl) : ServiceCall → String → Option String → Prop
  | .speedboatCommit commit => fun t _ => ∃ info ∈ commit.typeFiles, t = info.tableName
  | .icebergCommit tableName _ => fun t _ => t = tableName
  | .addCheckpoint metadata => fun t _ => t = metadata.tableName
  | .extensionCommit tableName commit => fun t e => t = tableName ∧ e = some commit.extension
  | .recordServingNodeActivation ack => fun t e =>
    t = ack.selector.tableName ∧ e = ack.selector.extension
  | .recordArtifactReadiness ack => fun t e => t = ack.selector.tableName ∧ e = ack.selector.extension
  | call => s.touchedBy call

/-- The texts glued from the names of two selectors differ, whatever ids and files they are glued to. -/
structure Apart (tableName₁ : String) (extension₁ : Option String) (tableName : String)
    (extension : Option String) : Prop where
  group : selectorGroupKey tableName₁ extension₁ ≠ selectorGroupKey tableName extension
  checkpoints : tableName₁ ≠ tableName → ∀ id₁ id, checkpointKey tableName₁ id₁ ≠ checkpointKey tableName id
  files : ∀ e₁ e, extension₁ = some e₁ → extension = some e → ∀ file₁ file,
    recentFileKey tableName₁ e₁ file₁ ≠ recentFileKey tableName e file

/-! ### Coordination records -/

/-- The coordination records of a selector are the same in both states. -/
structure SameCoordination (tableName : String) (extension : Option String) (s s' : EphemeralServiceImpl) : Prop where
  published : ∀ role, s'.getPublishedCheckpointSync role tableName extension =
    s.getPublishedCheckpointSync role tableName extension
  epoch : s'.checkpointCutoverEpochs.lookup (selectorGroupKey tableName extension) =
    s.checkpointCutoverEpochs.lookup (selectorGroupKey tableName extension)
  view : s'.getCutoverMembershipView tableName extension = s.getCutoverMembershipView tableName extension
  activations : s'.servingNodeActivations.lookup (selectorGroupKey tableName extension) =
    s.servingNodeActivations.lookup (selectorGroupKey tableName extension)
  readiness : s'.artifactReadinessAcks.lookup (selectorGroupKey tableName extension) =
    s.artifactReadinessAcks.lookup (selectorGroupKey tableName extension)

theorem SameCoordination.of_eq (h : s'.coordination = s.coordination) : SameCoordination tableName extension s s' := by
  cases s
  cases s'
  obtain ⟨rfl, rfl, rfl, rfl, rfl, rfl⟩ := Coordination.mk.inj h
  exact ⟨fun _ => rfl, rfl, rfl, rfl, rfl⟩

theorem roleKey_bar_inj {role role' : PublishedCheckpointRole} {a b : String}
    (h : roleKey role ++ "|" ++ a = roleKey role' ++ "|" ++ b) : role = role' := by
  have hhead := congrArg (fun key => key.toList.head?) h
  cases role <;> cases role' <;> first | rfl | simp [roleKey, String.toList_append] at hhead

section

variable {touched : String → Option String → Prop}
  (hkeys : ∀ t e, touched t e → selectorGroupKey t e ≠ selectorGroupKey tableName extension)

include hkeys

theorem CutoverOp.sameCoordination (h : CutoverOp c touched s s') : SameCoordination tableName extension s s' := by
  have hstart : ∀ {t e} (target nodes), touched t e →
      SameCoordination tableName extension s (s.startMembershipEpoch t e target nodes) := by
    intro t e target nodes ht
    have hne := (hkeys t e ht).symm
    exact ⟨fun _ => rfl, lookup_insert_ne hne, lookup_insert_ne hne, lookup_erase_ne hne, rfl⟩
  cases h with
  | view hview =>
    cases hview with
    | prune => exact ⟨fun _ => rfl, rfl, rfl, rfl, rfl⟩
    | clearReadiness ht =>
      exact ⟨fun _ => rfl, rfl, rfl, rfl, lookup_erase_ne (hkeys _ _ ht).symm⟩
    | retarget ht => exact hstart _ _ ht
    | reconfigure ht => exact hstart _ _ ht
    | backfill ht => exact ⟨fun _ => rfl, rfl, lookup_insert_ne (hkeys _ _ ht).symm, rfl, rfl⟩
  | planTarget _ ht | promote _ ht =>
    refine ⟨fun role => lookup_insert_ne fun heq => hkeys _ _ ht ?_, rfl, rfl, rfl, rfl⟩
    have hkey := heq
    rw [selectorStorageKey_eq, selectorStorageKey_eq] at hkey
    cases roleKey_bar_inj hkey
    exact (selectorGroupKey_of_storageKey heq).symm
  | dropRequest => exact ⟨fun _ => rfl, rfl, rfl, rfl, rfl⟩

theorem CutoverOps.sameCoordination (h : CutoverOps c touched s s') : SameCoordination tableName extension s s' := by
  induction h with
  | refl => exact .of_eq rfl
  | tail _ hop ih =>
    have h := hop.sameCoordination hkeys
    exact ⟨fun role => (h.published role).trans (ih.published role), h.epoch.trans ih.epoch, h.view.trans ih.view,
      h.activations.trans ih.activations, h.readiness.trans ih.readiness⟩

end

theorem CoordinationStep.sameCoordination (h : CoordinationStep s c s')
    (hkeys : ∀ t e, s.Addresses c.call t e → selectorGroupKey t e ≠ selectorGroupKey tableName extension) :
    SameCoordination tableName extension s s' := by
  cases h with
  | ops hops =>
    refine hops.sameCoordination fun t e ht => hkeys t e ?_
    obtain ⟨now, call⟩ := c
    cases call <;> first | exact ht | exact ht.elim
  | heartbeat _ heq =>
    rw [heq]
    exact ⟨fun _ => rfl, rfl, rfl, rfl, rfl⟩
  | activation hcall heq =>
    rw [hcall] at hkeys
    rw [heq]
    exact ⟨fun _ => rfl, rfl, rfl, lookup_insert_ne (hkeys _ _ ⟨rfl, rfl⟩).symm, rfl⟩
  | readiness hcall heq =>
    rw [hcall] at hkeys
    rw [heq]
    exact ⟨fun _ => rfl, rfl, rfl, rfl, lookup_insert_ne (hkeys _ _ ⟨rfl, rfl⟩).symm⟩

/-! ### Stored checkpoints -/

open CoverageRecords

theorem stored_commit_of_ne {id : String} {c : TableMetadataCheckpoint}
    (hkey : key ≠ checkpointKey t id) : (r.commit t id c).stored key = r.stored key :=
  update_of_ne hkey _ _

theorem stored_of_infos {infos : List SpeedboatCommitTableInfo}
    (h : Run.exec speedboatCommitTableInfo s infos = some s')
    (hkey : ∀ info ∈ infos, ∀ id, key ≠ checkpointKey info.tableName id) :
    s'.records.stored key = s.records.stored key := by
  induction infos generalizing s with
  | nil =>
    cases h
    rfl
  | cons info infos ih =>
    obtain ⟨mid, hmid, hrest⟩ := bind_eq_some_iff.mp h
    rw [ih hrest fun other hmem => hkey other (List.mem_cons_of_mem _ hmem)]
    have hinfo := hkey info List.mem_cons_self
    cases infoStep_of_speedboatCommitTableInfo hmid with
    | commit _ _ _ _ hq =>
      rw [hq.stored]
      exact stored_commit_of_ne (hinfo _)
    | delete _ _ _ _ hrecords =>
      rw [hrecords]
      exact stored_commit_of_ne (hinfo _)

theorem stored_of_step (h : s.step c = some s')
    (hkey : ∀ t e, s.Addresses c.call t e → ∀ id, key ≠ checkpointKey t id) :
    s'.records.stored key = s.records.stored key := by
  obtain ⟨now, call⟩ := c
  have hcoverage := step_coverageStep h
  cases hcoverage with
  | other heq => rw [heq]
  | speedboat hinfos heq =>
    rw [heq]
    exact stored_of_infos hinfos fun info hmem => hkey info.tableName none ⟨info, hmem, rfl⟩
  | iceberg hstep =>
    rw [hstep.queued.stored]
    exact stored_commit_of_ne (hkey _ none rfl _)
  | extension hstep =>
    rw [hstep.stored_eq]
    refine if_neg fun hmem => ?_
    obtain ⟨id, -, heq⟩ := List.mem_map.mp hmem
    exact hkey _ _ ⟨rfl, rfl⟩ id heq.symm
  | @add metadata _ hadded =>
    have hadd : (s.records.add metadata).stored key = s.records.stored key := by
      unfold CoverageRecords.add
      dsimp only
      split
      · rfl
      · exact update_of_ne (hkey metadata.tableName none rfl _) _ _
    rw [hadded.stored, hadd]

/-! ### Cached coverage -/

theorem recent_extensionCommit (h : s.extensionCommit t commit = some s') :
    s'.recentFileExtensionMetadata = (s.addRecentExtensionFiles t commit).recentFileExtensionMetadata := by
  simp only [extensionCommit, Run.bind_eq_some] at h
  obtain ⟨⟨covered, s1⟩, hcover, maxId, -, s2, happly, heq⟩ := h
  cases heq
  have hs1 : s1.recentFileExtensionMetadata = s.recentFileExtensionMetadata :=
    -- the coverage is stored as any commit would store it
    CommitOps.recent_eq (c := ⟨0, .speedboatCommit ⟨[], none⟩⟩) (fun _ _ => ServiceCall.noConfusion)
      (commitOps_addCoverageForAll rfl hcover)
  have hs2 : s2.recentFileExtensionMetadata = (s1.addRecentExtensionFiles t commit).recentFileExtensionMetadata := by
    unfold applyExtensionCommitToWorkItem at happly
    split at happly
    · cases happly
      rfl
    · simp only [Run.bind_eq_some] at happly
      obtain ⟨_, -, _, -, heq⟩ := happly
      cases heq
      rfl
  have hend : (s2.advanceExtensionFrontier t maxId).recentFileExtensionMetadata = s2.recentFileExtensionMetadata := by
    unfold advanceExtensionFrontier
    split
    · split <;> rfl
    · rfl
  change (s2.advanceExtensionFrontier t maxId).recentFileExtensionMetadata = _
  rw [hend, hs2]
  simp [addRecentExtensionFiles, hs1]

/-! ### Isolation -/

theorem selectorRecords_of_step (h : s.step c = some s') (hother : ¬ s.Addresses c.call tableName extension)
    (hgroup : c.call.isCoordination = true → ∀ t e, s.Addresses c.call t e →
      selectorGroupKey t e ≠ selectorGroupKey tableName extension)
    (hcheckpoints : c.call.isCoordination = false → ∀ t e, s.Addresses c.call t e → t ≠ tableName →
      ∀ id₁ id, checkpointKey t id₁ ≠ checkpointKey tableName id)
    (hfiles : ∀ t commit, c.call = .extensionCommit t commit → ∀ e, extension = some e → ∀ file₁ file,
      recentFileKey t commit.extension file₁ ≠ recentFileKey tableName e file) :
    s'.selectorRecords tableName extension = s.selectorRecords tableName extension := by
  obtain ⟨now, call⟩ := c
  cases hkind : call.isCoordination with
  | true =>
    have hstep := step_coordinationStep hkind h
    have hsame := hstep.sameCoordination (hgroup hkind)
    have honly := hstep.coordinationOnly
    refine SelectorRecords.ext (funext hsame.published) hsame.epoch hsame.view hsame.activations hsame.readiness ?_ ?_
    · rw [honly]
      rfl
    · rw [honly]
      rfl
  | false =>
    have hops := step_commitOps hkind h
    have hsame : SameCoordination tableName extension s s' := by
      refine .of_eq (hops.frame _ fun a b hop => ?_)
      cases hop <;> rfl
    refine SelectorRecords.ext (funext hsame.published) hsame.epoch hsame.view hsame.activations
      hsame.readiness (funext fun id => ?_) (funext fun file => ?_)
    · -- a stored checkpoint
      by_cases hext : ∃ commit, call = .extensionCommit tableName commit
      · obtain ⟨commit, rfl⟩ := hext
        have hne : extension ≠ some commit.extension := fun heq => hother ⟨rfl, heq⟩
        rw [step_extensionCommit] at h
        obtain ⟨_, hstep⟩ := extensionStep_of_extensionCommit h
        have hstored := congrFun hstep.stored_eq (checkpointKey tableName id)
        change (s'.records.stored (checkpointKey tableName id)).map _ =
          (s.records.stored (checkpointKey tableName id)).map _
        rw [hstored]
        simp only [CoverageRecords.cover]
        split
        · rw [map_map]
          congr 1
          funext c
          refine Prod.ext rfl ?_
          cases extension with
          | none => rfl
          | some e => exact lookup_insert_ne fun heq => hne (heq ▸ rfl)
        · rfl
      · refine congrArg (Option.map _) (stored_of_step h fun t e ht id₁ heq => ?_)
        have htable : t ≠ tableName := by
          rintro rfl
          cases call with
          | extensionCommit t' commit => exact hext ⟨commit, by rw [ht.1]⟩
          | speedboatCommit | icebergCommit | addCheckpoint => exact hother ht
          | updateAllCheckpoints | planCheckpointCutover | getCheckpointCutoverState
          | recordServingNodeActivation | recordArtifactReadiness => cases hkind
          | _ => exact ht
        exact hcheckpoints hkind t e ht htable id₁ id heq.symm
    · -- the cached coverage of a file
      cases extension with
      | none => rfl
      | some e =>
        by_cases hext : ∃ t commit, call = .extensionCommit t commit
        · obtain ⟨t, commit, rfl⟩ := hext
          rw [step_extensionCommit] at h
          refine (congrArg (AList.lookup (recentFileKey tableName e file)) (recent_extensionCommit h)).trans ?_
          refine Dict.lookup_insertAll_append (l := []) fun hmem => ?_
          simp only [List.map_map, List.mem_map, comp_apply] at hmem
          obtain ⟨entry, -, heq⟩ := hmem
          exact hfiles t commit rfl e rfl entry.1 file heq
        · have hrecent := hops.recent_eq fun t commit heq => hext ⟨t, commit, heq⟩
          exact congrArg (AList.lookup _) hrecent

/-- A call is addressed to one selector: to it alone, or, for a commit, to those of its table. -/
def AddressedTo (s : EphemeralServiceImpl) (call : ServiceCall) (tableName : String)
    (extension : Option String) : Prop :=
  s.Addresses call tableName extension ∧ ∀ t e, s.Addresses call t e →
    t = tableName ∧ (call.isCoordination = true → e = extension)

/-- Some call addressed to the first selector changes the records of the second, to which it is not
addressed. -/
def Disturbs (s : EphemeralServiceImpl) (tableName₁ : String) (extension₁ : Option String)
    (tableName : String) (extension : Option String) : Prop :=
  ∃ c s', step s c = some s' ∧ s.AddressedTo c.call tableName₁ extension₁ ∧ ¬ s.Addresses c.call tableName extension ∧
    s'.selectorRecords tableName extension ≠ s.selectorRecords tableName extension

theorem disturbed_of_group (hne : tableName₁ ≠ tableName ∨ extension₁ ≠ extension)
    (hkey : selectorGroupKey tableName₁ extension₁ = selectorGroupKey tableName extension) :
    Disturbs (new .disabled .counting) tableName₁ extension₁ tableName extension := by
  let ack : ArtifactReadinessAck := ⟨.forTarget tableName₁ extension₁, "", 0, .statsManifest, "", 0⟩
  refine ⟨⟨0, .recordArtifactReadiness ack⟩, (new .disabled .counting).recordArtifactReadiness ack, rfl,
    ⟨⟨rfl, rfl⟩, fun t e h => ⟨h.1, fun _ => h.2⟩⟩, ?_, fun heq => ?_⟩
  · rintro ⟨htable, hext⟩
    exact hne.elim (fun h => h htable.symm) (fun h => h hext.symm)
  have hready := congrArg SelectorRecords.readiness heq
  change (AList.insert (selectorGroupKey tableName₁ extension₁) _ _).lookup
    (selectorGroupKey tableName extension) = none at hready
  rw [← hkey, lookup_insert] at hready
  cases hready

theorem disturbed_of_checkpoints (hne : tableName₁ ≠ tableName) {id₁ id : String}
    (hkey : checkpointKey tableName₁ id₁ = checkpointKey tableName id) :
    Disturbs (new .disabled .counting) tableName₁ extension₁ tableName extension := by
  let metadata : TableMetadataCheckpoint := { tableName := tableName₁, checkpointId := id₁, schema := .minimal }
  let s := new .disabled .counting
  obtain ⟨s', hs'⟩ : ∃ s', s.addCheckpoint metadata = some s' := ⟨_, rfl⟩
  refine ⟨⟨0, .addCheckpoint metadata⟩, s', (step_addCheckpoint metadata).trans hs', ⟨rfl, fun t e h => ⟨h, nofun⟩⟩, Ne.symm hne, fun heq => ?_⟩
  have hadded : (s.records.add metadata).stored (checkpointKey tableName id) = some metadata := by
    rw [← hkey]
    exact update_self _ _ _
  have hcheckpoint := congrFun (congrArg SelectorRecords.checkpoint heq) id
  change (s'.records.stored (checkpointKey tableName id)).map _ = none at hcheckpoint
  rw [(added_of_addCheckpoint hs').stored, hadded] at hcheckpoint
  cases hcheckpoint

theorem disturbed_of_files (hne : tableName₁ ≠ tableName ∨ extension₁ ≠ extension) {e₁ e file₁ file : String}
    (he₁ : extension₁ = some e₁) (he : extension = some e)
    (hkey : recentFileKey tableName₁ e₁ file₁ = recentFileKey tableName e file) :
    ∃ s, Disturbs s tableName₁ extension₁ tableName extension := by
  subst he₁ he
  let commit : ExtensionCommit := ⟨"", e₁, Dict.single file₁ []⟩
  let c : TableMetadataCheckpoint := { tableName := tableName₁, checkpointId := "1", schema := .minimal }
  -- a checkpoint without files waits, which any commit completes
  let s : EphemeralServiceImpl := { new .disabled .counting with
    checkpoints := AList.insert (checkpointKey tableName₁ "1") c ∅
    checkpointsNeedingExtensionWork := AList.insert (extensionWorkKey tableName₁ e₁) ["1"] ∅ }
  have hwaiting : s.records.waiting (extensionWorkKey tableName₁ commit.extension) = ["1"] := by
    have hlookup : s.checkpointsNeedingExtensionWork.lookup (extensionWorkKey tableName₁ e₁) = some ["1"] :=
      lookup_insert _
    simp [records, Dict.getD, commit, hlookup]
  have hstored : s.records.stored (checkpointKey tableName₁ "1") = some c := lookup_insert _
  have hcompleted : s.records.completed tableName₁ commit ["1"] = ["1"] := by
    simp only [completed, List.filter_cons, List.filter_nil, hstored, any_some]
    rfl
  have hsome : (s.extensionCommit tableName₁ commit).isSome := by
    refine extensionCommit_isSome ?_ ?_ fun item hitem => ?_
    · rw [hwaiting]
      simp [hstored]
    · rw [hwaiting, hcompleted]
      simp
    · exact absurd ((work_new .disabled .counting _ _).symm.trans hitem) (by simp)
  obtain ⟨s', hs'⟩ := isSome_iff_exists.mp hsome
  refine ⟨s, ⟨0, .extensionCommit tableName₁ commit⟩, s', (step_extensionCommit commit).trans hs',
    ⟨⟨rfl, rfl⟩, fun t x h => ⟨h.1, fun _ => h.2⟩⟩, ?_, fun heq => ?_⟩
  · rintro ⟨htable, hext⟩
    exact hne.elim (fun h => h htable.symm) (fun h => h hext.symm)
  have hcoverage := congrFun (congrArg SelectorRecords.coverage heq) file
  change s'.recentFileExtensionMetadata.lookup (recentFileKey tableName e file) = none at hcoverage
  rw [recent_extensionCommit hs', ← hkey] at hcoverage
  have hinsert : (s.addRecentExtensionFiles tableName₁ commit).recentFileExtensionMetadata.lookup
      (recentFileKey tableName₁ e₁ file₁) = some [] := lookup_insert _
  rw [hinsert] at hcoverage
  cases hcoverage

theorem recentFileKey_eq (tableName extension fileName : String) :
    recentFileKey tableName extension fileName = tableName ++ "_" ++ (extension ++ "_" ++ fileName) := by
  simp [recentFileKey, String.append_assoc]

theorem Apart.of_plain {e₁ e : String} (hne : tableName₁ ≠ tableName ∨ e₁ ≠ e)
    (htable₁ : '_' ∉ tableName₁.toList) (htable : '_' ∉ tableName.toList)
    (he₁ : '_' ∉ e₁.toList) (he : '_' ∉ e.toList) (hplain₁ : PlainExtension (some e₁))
    (hplain : PlainExtension (some e)) : Apart tableName₁ (some e₁) tableName (some e) := by
  refine ⟨fun heq => ?_, fun hneq id₁ id heq => ?_, ?_⟩
  · obtain ⟨rfl, hext⟩ := selectorGroupKey_inj hplain₁ hplain heq
    exact hne.elim (fun h => h rfl) fun h => h (Option.some.inj hext)
  · exact hneq (Text.glue_inj_of_notMem_left (c := '_') htable₁ htable heq).1
  intro e₁' e' he₁' he' file₁ file heq
  cases he₁'
  cases he'
  rw [recentFileKey_eq, recentFileKey_eq] at heq
  obtain ⟨rfl, hrest⟩ := Text.glue_inj_of_notMem_left (c := '_') htable₁ htable heq
  obtain ⟨rfl, -⟩ := Text.glue_inj_of_notMem_left (c := '_') he₁ he hrest
  exact hne.elim (fun h => h rfl) fun h => h rfl

/-- **Selectors are isolated exactly as far as their keys differ.** Calls addressed to one selector leave
the records of another alone, in every state, if and only if no texts glued from their names are the
same; and a call addressed to several leaves a further one alone if it is apart from each of them. -/
theorem isolated_iff (hne : tableName₁ ≠ tableName ∨ extension₁ ≠ extension) :
    ((∀ s c s', step s c = some s' → s.AddressedTo c.call tableName₁ extension₁ →
        ¬ s.Addresses c.call tableName extension →
        s'.selectorRecords tableName extension = s.selectorRecords tableName extension) ↔
      Apart tableName₁ extension₁ tableName extension) ∧
    ∀ s c s', step s c = some s' → ¬ s.Addresses c.call tableName extension →
      (∀ t e, s.Addresses c.call t e → Apart t e tableName extension) →
      s'.selectorRecords tableName extension = s.selectorRecords tableName extension := by
  refine ⟨⟨fun hisolated => ?_, fun hapart s c s' hstep hto hother => ?_⟩, fun s c s' hstep hother hapart => ?_⟩
  · by_contra hnot
    suffices hdisturbed : ∃ s, Disturbs s tableName₁ extension₁ tableName extension by
      obtain ⟨s, c, s', hstep, hto, hother, hdiffer⟩ := hdisturbed
      exact hdiffer (hisolated s c s' hstep hto hother)
    by_cases hgroup : selectorGroupKey tableName₁ extension₁ = selectorGroupKey tableName extension
    · exact ⟨_, disturbed_of_group hne hgroup⟩
    by_cases hcheckpoints : tableName₁ ≠ tableName → ∀ id₁ id, checkpointKey tableName₁ id₁ ≠ checkpointKey tableName id
    · by_contra hnone
      refine hnot ⟨hgroup, hcheckpoints, fun e₁ e he₁ he file₁ file hkey => hnone ?_⟩
      exact disturbed_of_files hne he₁ he hkey
    · simp only [not_forall, not_not] at hcheckpoints
      obtain ⟨htable, id₁, id, hkey⟩ := hcheckpoints
      exact ⟨_, disturbed_of_checkpoints htable hkey⟩
  · refine selectorRecords_of_step hstep hother (fun hkind t e ht => ?_) (fun hkind t e ht htable => ?_)
      fun t commit hcall e he file₁ file => ?_
    · obtain ⟨rfl, hext⟩ := hto.2 t e ht
      rw [hext hkind]
      exact hapart.group
    · obtain ⟨rfl, -⟩ := hto.2 t e ht
      exact hapart.checkpoints htable
    · have hcommit := hto.1
      rw [hcall] at hcommit
      obtain ⟨rfl, hext⟩ := hcommit
      exact hapart.files _ _ hext he file₁ file
  · refine selectorRecords_of_step hstep hother (fun _ t e ht => (hapart t e ht).group)
      (fun _ t e ht => (hapart t e ht).checkpoints) fun t commit hcall e he => ?_
    exact (hapart t (some commit.extension) (by rw [hcall]; exact ⟨rfl, rfl⟩)).files _ _ rfl he

/-- Calls addressed to `logs` leave `users` alone. -/
theorem isolated_logs_users : Apart "logs" (some "es") "users" (some "es") ∧
    ∀ s c s', step s c = some s' → s.AddressedTo c.call "logs" (some "es") → ¬ s.Addresses c.call "users" (some "es") →
      s'.selectorRecords "users" (some "es") = s.selectorRecords "users" (some "es") := by
  have hapart : Apart "logs" (some "es") "users" (some "es") :=
    .of_plain (Or.inl (by decide)) (by decide) (by decide) (by decide) (by decide) (by decide) (by decide)
  exact ⟨hapart, (isolated_iff (Or.inl (by decide))).1.mpr hapart⟩

/-- From the first state on, an acknowledgement for the extension `a|b` of the table `c` is one for the
extension `a` of the table `b|c`, and a checkpoint `2` of `logs_1` is the checkpoint `1_2` of `logs`. -/
theorem not_isolated : Disturbs (new .disabled .counting) "c" (some "a|b") "b|c" (some "a") ∧
    Disturbs (new .disabled .counting) "logs_1" none "logs" none :=
  ⟨disturbed_of_group (by decide) (by decide),
    disturbed_of_checkpoints (by decide) (show checkpointKey "logs_1" "2" = checkpointKey "logs" "1_2" by decide)⟩

end EphemeralServiceImpl

end PowdrrEngine
