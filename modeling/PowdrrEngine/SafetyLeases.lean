import PowdrrEngine.SafetyCompaction

/-! The leases of work items. An item that was handed out stays leased until its lease has run out,
whatever is committed in between and whatever files are merged into it; compactions and cleanups are
therefore never handed out twice within a lease. The lease of an extension item ends early with every
extension commit for its table, whichever files that commit covers. -/

namespace PowdrrEngine

open List Function Dict

namespace WorkBoard

variable {b b' : WorkBoard} {c : TimedCall} {slot : WorkSlot} {id : String} {expiry : Int}

/-- An id that no slot but the given one holds, and that one only under a lease up to `expiry` or
longer. -/
structure Guarded (b : WorkBoard) (slot : WorkSlot) (id : String) (expiry : Int) : Prop where
  drawn : ∃ n < b.drawn, id = b.ids.text n
  leased : ∀ slot' item, b.held slot' = some item → item.1 = id →
    slot' = slot ∧ ∃ lease, item.2 = some lease ∧ expiry ≤ lease

theorem Retired.guarded (h : b.Retired id) : b.Guarded slot id expiry :=
  ⟨h.drawn, fun slot' item hitem hid => absurd hid (h.gone slot' item hitem)⟩

theorem Guarded.op (h : b.Guarded slot id expiry) (hop : Op c b b')
    (hreset : ∀ tableName commit, c.call = .extensionCommit tableName commit →
      slot ≠ .extension commit.extension tableName) : b'.Guarded slot id expiry := by
  obtain ⟨hids, hdrawn, -⟩ := hop.from
  obtain ⟨n, hn, htext⟩ := h.drawn
  refine ⟨⟨n, hn.trans_le hdrawn, hids ▸ htext⟩, fun slot' item hitem hid => ?_⟩
  cases hop with
  | draw => exact h.leased slot' item hitem hid
  | create slot'' =>
    rw [create_held] at hitem
    split at hitem
    · cases hitem
      exact absurd (b.ids.text_injective (hid.trans htext)) hn.ne'
    · exact h.leased slot' item hitem hid
  | release slot'' =>
    simp only [release, update_apply] at hitem
    split at hitem
    · cases hitem
    · exact h.leased slot' item hitem hid
  | reset _ hcall =>
    simp only [reset, update_apply] at hitem
    split at hitem
    · rename_i hslot
      obtain ⟨old, hold, rfl⟩ := Option.map_eq_some_iff.mp hitem
      exact absurd (h.leased _ old hold hid).1.symm (hreset _ _ hcall)
    · exact h.leased slot' item hitem hid
  | claim _ p hfree =>
    simp only [claim] at hitem
    split at hitem
    · rename_i hp
      obtain ⟨old, hold, rfl⟩ := Option.map_eq_some_iff.mp hitem
      obtain ⟨hslot, lease, hlease, hle⟩ := h.leased slot' old hold hid
      have hexpired : lease ≤ c.now := by
        have := hfree slot' old hp hold
        rw [hlease] at this
        exact of_decide_eq_true this
      refine ⟨hslot, _, rfl, hle.trans (hexpired.trans ?_)⟩
      exact le_add_of_nonneg_right (by decide)
    · exact h.leased slot' item hitem hid

/-- An id that was drawn and that no slot but the given one holds. -/
structure Confined (b : WorkBoard) (slot : WorkSlot) (id : String) : Prop where
  drawn : ∃ n < b.drawn, id = b.ids.text n
  only : ∀ slot' item, b.held slot' = some item → item.1 = id → slot' = slot

theorem Confined.op (h : b.Confined slot id) (hop : Op c b b') : b'.Confined slot id := by
  obtain ⟨hids, hdrawn, hfrom⟩ := hop.from
  obtain ⟨n, hn, htext⟩ := h.drawn
  refine ⟨⟨n, hn.trans_le hdrawn, hids ▸ htext⟩, fun slot' item hitem heq => ?_⟩
  rcases hfrom slot' item hitem with ⟨old, hold, hid⟩ | ⟨hheld, -⟩
  · exact h.only slot' old hold (hid.symm.trans heq)
  · rw [hheld, create_held, if_pos rfl] at hitem
    cases hitem
    exact absurd (b.ids.text_injective (heq.trans htext)) hn.ne'

theorem Confined.ops (h : b.Confined slot id) (hops : Ops c b b') : b'.Confined slot id := by
  induction hops with
  | refl => exact h
  | tail _ hop ih => exact ih.op hop

theorem Confined.held_or_retired (h : b.Confined slot id) :
    (∃ lease, b.held slot = some (id, lease)) ∨ b.Retired id := by
  refine or_iff_not_imp_left.mpr fun hnot => ⟨h.drawn, fun slot' item hitem heq => hnot ⟨item.2, ?_⟩⟩
  rw [← h.only slot' item hitem heq, hitem, ← heq]

end WorkBoard

namespace EphemeralServiceImpl

open WorkBoard

variable {s s' : EphemeralServiceImpl} {c : TimedCall} {slot : WorkSlot} {now expiry : Int} {calls : List TimedCall}

/-! ### The ids of cleanups -/

def cleanupIds (s : EphemeralServiceImpl) : List String := s.cleanupWorkItems.map (·.workItem.id)

theorem held_of_mem_cleanupIds {id : String} (h : id ∈ s.cleanupIds) :
    ∃ item, s.board.held (.cleanup id) = some item ∧ item.1 = id := by
  obtain ⟨tracker, hmem, hid⟩ := mem_map.mp h
  cases hfind : s.cleanupWorkItems.find? fun tracker => tracker.workItem.id = id with
  | none => exact absurd hid (by simpa using find?_eq_none.mp hfind tracker hmem)
  | some found =>
    refine ⟨(found.workItem.id, found.leaseExpiresAtMs), ?_, by simpa using find?_some hfind⟩
    simp [board, hfind]

theorem cleanupIds_op (hdistinct : s.board.Distinct) (hnodup : s.cleanupIds.Nodup) (h : CommitOp c s s') :
    s'.cleanupIds.Nodup := by
  cases h with
  | finishCompaction =>
    simp only [cleanupIds, map_append, map_cons, map_nil]
    refine List.Nodup.append hnodup (nodup_singleton _) fun id hold hnew => ?_
    obtain ⟨item, hitem, hid⟩ := held_of_mem_cleanupIds hold
    obtain ⟨n, hn, htext⟩ := hdistinct.drawn _ item hitem
    have hnext : id = s.ids.text s.drawn := mem_singleton.mp hnew
    exact hn.ne (s.ids.text_injective (htext.symm.trans (hid.trans hnext)))
  | cleanup => exact hnodup.sublist (filter_sublist.map _)
  | claimCleanups =>
    have hids : s.cleanupIds = (s.getCleanupWorkItems c.now).2.cleanupIds := by
      simp only [cleanupIds, getCleanupWorkItems, map_map]
      refine map_congr_left fun tracker _ => ?_
      simp only [comp_apply]
      split <;> rfl
    exact hids ▸ hnodup
  | _ => exact hnodup

theorem cleanupIds_step (hdistinct : s.board.Distinct) (hnodup : s.cleanupIds.Nodup)
    (h : s.step c = some s') : s'.board.Distinct ∧ s'.cleanupIds.Nodup := by
  refine ⟨hdistinct.ops (step_ops h), ?_⟩
  cases hkind : c.call.isCoordination with
  | true =>
    rw [(step_coordinationStep hkind h).coordinationOnly]
    exact hnodup
  | false =>
    have hall : s'.board.Distinct ∧ s'.cleanupIds.Nodup := by
      have hops := step_commitOps hkind h
      clear h
      induction hops with
      | refl => exact ⟨hdistinct, hnodup⟩
      | tail _ hop ih => exact ⟨ih.1.ops hop.boardOps, cleanupIds_op ih.1 ih.2 hop⟩
    exact hall.2

theorem cleanupIds_of_exec {mode : CompactionMode} {ids : IdInstance}
    (h : Run.exec step (new mode ids) calls = some s) : s.board.Distinct ∧ s.cleanupIds.Nodup := by
  refine Run.exec_invariant_all (P := fun t => t.board.Distinct ∧ t.cleanupIds.Nodup)
    (fun _ _ _ ht hstep => cleanupIds_step ht.1 ht.2 hstep)
    ⟨distinct_new mode ids, nodup_nil⟩ h

/-! ### Claims -/

inductive ClaimedWork where
  | extension (item : ExtensionWorkItem)
  | compaction (tableName : String) (item : CompactionWorkItem)
  | cleanup (item : CleanupWorkItem)

def ClaimedWork.id : ClaimedWork → String
  | .extension item => item.id
  | .compaction _ item => item.id
  | .cleanup item => item.id

def claimedWork : ServiceAnswer → List ClaimedWork
  | .extensionWork items => items.map .extension
  | .compactionWork items => items.map fun (tableName, item) => .compaction tableName item
  | .cleanupWork items => items.map .cleanup
  | _ => []

structure HandedOut (s s' : EphemeralServiceImpl) (now : Int) (slot : WorkSlot) (id : String) : Prop where
  free : ∃ lease, s.board.held slot = some (id, lease) ∧ leaseIsAvailable now lease = true
  leased : s'.board.held slot = some (id, some (claimLeaseExpiresAtMs now))

theorem handedOut_extension {extensionType : String} {item : ExtensionWorkItem}
    (h : item ∈ (s.getExtensionWorkItems now extensionType).1) :
    ∃ tableName, HandedOut s (s.getExtensionWorkItems now extensionType).2 now
      (.extension extensionType tableName) item.id := by
  unfold getExtensionWorkItems at h ⊢
  split at h
  · rename_i hes
    rw [if_pos hes]
    split at h
    · cases h
    rename_i items hitems
    obtain ⟨tracker, hmem, rfl⟩ := mem_map.mp h
    obtain ⟨hvalue, hclaimable⟩ := mem_filter.mp hmem
    obtain ⟨tableName, hlookup⟩ := mem_values.mp hvalue
    refine ⟨tableName, ⟨tracker.leaseExpiresAtMs, ?_, (Bool.and_eq_true_iff.mp hclaimable).2⟩, ?_⟩
    · simp [board, hitems, hlookup]
    · simp only [board, lookup_insert_eq, if_true, Option.bind_some, lookup_mapValues, hlookup,
        Option.map_some, hclaimable]
  · cases h

theorem handedOut_compaction {tableName : String} {item : CompactionWorkItem}
    (h : (tableName, item) ∈ (s.getCompactionWorkItems now).1) :
    HandedOut s (s.getCompactionWorkItems now).2 now (.compaction tableName) item.id := by
  obtain ⟨⟨table, tracker⟩, hmem, heq⟩ := mem_map.mp h
  obtain ⟨rfl, rfl⟩ := Prod.mk.inj heq
  obtain ⟨hentry, hfree⟩ := mem_filter.mp hmem
  have hlookup : s.compactionWorkItems.lookup table = some tracker := lookup_eq_some_iff.mpr hentry
  refine ⟨⟨tracker.leaseExpiresAtMs, ?_, hfree⟩, ?_⟩
  · simp [board, hlookup]
  · simp [board, getCompactionWorkItems, lookup_mapValues, hlookup, hfree]

theorem handedOut_cleanup (hnodup : s.cleanupIds.Nodup) {item : CleanupWorkItem}
    (h : item ∈ (s.getCleanupWorkItems now).1) :
    HandedOut s (s.getCleanupWorkItems now).2 now (.cleanup item.id) item.id := by
  obtain ⟨tracker, hmem, rfl⟩ := mem_map.mp h
  obtain ⟨htracker, hclaimable⟩ := mem_filter.mp hmem
  have hfind : (s.cleanupWorkItems.find? fun other => other.workItem.id = tracker.workItem.id) = some tracker := by
    cases hfound : s.cleanupWorkItems.find? fun other => other.workItem.id = tracker.workItem.id with
    | none =>
      have hnot := find?_eq_none.mp hfound tracker htracker
      exact absurd (decide_eq_true rfl) hnot
    | some found =>
      have hid : found.workItem.id = tracker.workItem.id := by simpa using find?_some hfound
      rw [inj_on_of_nodup_map hnodup (mem_of_find?_eq_some hfound) htracker hid]
  refine ⟨⟨tracker.leaseExpiresAtMs, ?_, (Bool.and_eq_true_iff.mp hclaimable).2⟩, ?_⟩
  · simp [board, hfind]
  have hkeep : ((fun other : CleanupWorkItemTracker => decide (other.workItem.id = tracker.workItem.id)) ∘
      fun other => if s.cleanupClaimable now other then
        { other with leaseExpiresAtMs := some (claimLeaseExpiresAtMs now) } else other) =
      fun other => decide (other.workItem.id = tracker.workItem.id) := by
    funext other
    simp only [comp_apply]
    split <;> rfl
  simp only [board, getCleanupWorkItems, find?_map, hkeep, hfind, Option.map_some, hclaimable, if_true]

theorem handedOut_of_answer (hnodup : s.cleanupIds.Nodup) {result : ServiceAnswer}
    (h : s.answer c.now c.call = some (result, s')) {item : ClaimedWork} (hitem : item ∈ claimedWork result) :
    ∃ slot, HandedOut s s' c.now slot item.id ∧
      ((∃ extension tableName, slot = .extension extension tableName) → ∃ work, item = .extension work) := by
  obtain ⟨now, call⟩ := c
  cases call with
  | getExtensionWorkItems extensionType =>
    cases h
    obtain ⟨work, hmem, rfl⟩ := mem_map.mp hitem
    obtain ⟨tableName, hout⟩ := handedOut_extension hmem
    exact ⟨_, hout, fun _ => ⟨work, rfl⟩⟩
  | getCompactionWorkItems =>
    cases h
    obtain ⟨⟨tableName, work⟩, hmem, rfl⟩ := mem_map.mp hitem
    exact ⟨_, handedOut_compaction hmem, fun ⟨_, _, hslot⟩ => nomatch hslot⟩
  | getCleanupWorkItems =>
    cases h
    obtain ⟨work, hmem, rfl⟩ := mem_map.mp hitem
    exact ⟨_, handedOut_cleanup hnodup hmem, fun ⟨_, _, hslot⟩ => nomatch hslot⟩
  | speedboatCommit | icebergCommit | extensionCommit | addCheckpoint | createPipeline
  | createLifetimePolicy =>
    obtain ⟨t, -, heq⟩ := Option.map_eq_some_iff.mp h
    cases heq
    cases hitem
  | _ =>
    cases h
    cases hitem

def CommitsTo (s : EphemeralServiceImpl) (c : TimedCall) (id : String) (commit : ExtensionCommit) : Prop :=
  ∃ tableName, c.call = .extensionCommit tableName commit ∧
    ∃ lease, s.board.held (.extension commit.extension tableName) = some (id, lease)

def CompletesItem (s : EphemeralServiceImpl) (c : TimedCall) (item : ExtensionWorkItem) : Prop :=
  ∃ commit, s.CommitsTo c item.id commit ∧ ∀ path ∈ item.paths, path ∈ commit.files

/-- A commit to an extension work item covers all the files the item was handed out with. -/
def CommitsWhole : ClaimedWork → EphemeralServiceImpl → TimedCall → Prop
  | .extension item, s, c => ∀ commit, s.CommitsTo c item.id commit → ∀ path ∈ item.paths, path ∈ commit.files
  | _, _, _ => True

theorem guarded_of_step {id : String} (hguard : s.board.Guarded slot id expiry) (h : s.step c = some s') :
    s'.board.Guarded slot id expiry ∨
      ∃ extension tableName, slot = .extension extension tableName ∧ ∃ commit, s.CommitsTo c id commit := by
  by_cases hreset : ∀ tableName commit, c.call = .extensionCommit tableName commit →
      slot ≠ .extension commit.extension tableName
  · left
    have hops := step_ops h
    generalize s'.board = b' at hops ⊢
    induction hops with
    | refl => exact hguard
    | tail _ hop ih => exact ih.op hop hreset
  push Not at hreset
  obtain ⟨tableName, commit, hcall, rfl⟩ := hreset
  by_cases hheld : ∃ lease, s.board.held (.extension commit.extension tableName) = some (id, lease)
  · exact Or.inr ⟨_, _, rfl, commit, tableName, hcall, hheld⟩
  -- the item is not there any more, so its id is gone for good
  have hretired : s.board.Retired id := by
    refine ⟨hguard.drawn, fun slot' item hitem hid => hheld ⟨item.2, ?_⟩⟩
    obtain ⟨rfl, -⟩ := hguard.leased slot' item hitem hid
    rw [hitem, ← hid]
  exact Or.inl (hretired.ops (step_ops h)).guarded

theorem guarded_of_exec {id : String} (hguard : s.board.Guarded slot id expiry) (h : Run.exec step s calls = some s') :
    s'.board.Guarded slot id expiry ∨ (∃ extension tableName, slot = .extension extension tableName) ∧
        ∃ earlier c later mid commit, calls = earlier ++ c :: later ∧
          Run.exec step s earlier = some mid ∧ mid.CommitsTo c id commit := by
  induction calls generalizing s with
  | nil =>
    cases h
    exact Or.inl hguard
  | cons c calls ih =>
    obtain ⟨next, hnext, hrest⟩ := Option.bind_eq_some_iff.mp h
    rcases guarded_of_step hguard hnext with hguard' | ⟨extension, tableName, hslot, commit, hcommit⟩
    · refine (ih hguard' hrest).imp_right ?_
      rintro ⟨hslot, earlier, c', later, mid, commit, rfl, hmid, hcommit⟩
      refine ⟨hslot, c :: earlier, c', later, mid, commit, rfl, ?_, hcommit⟩
      exact Option.bind_eq_some_iff.mpr ⟨next, hnext, hmid⟩
    · exact Or.inr ⟨⟨extension, tableName, hslot⟩, [], c, calls, s, commit, rfl, rfl, hcommit⟩

theorem HandedOut.guarded {id : String} (h : HandedOut s s' now slot id)
    (hdistinct : s'.board.Distinct) : s'.board.Guarded slot id (claimLeaseExpiresAtMs now) := by
  refine ⟨hdistinct.drawn slot _ h.leased, fun slot' item hitem hid => ?_⟩
  obtain rfl := hdistinct.unique slot' slot item _ hitem h.leased hid
  cases hitem.symm.trans h.leased
  exact ⟨rfl, _, rfl, le_rfl⟩

theorem HandedOut.expired {slot' : WorkSlot} {id : String} (h : HandedOut s s' now slot id)
    (hguard : s.board.Guarded slot' id expiry) : expiry ≤ now := by
  obtain ⟨lease, hheld, hfree⟩ := h.free
  obtain ⟨-, expires, hlease, hle⟩ := hguard.leased slot _ hheld rfl
  dsimp only at hlease
  rw [hlease] at hfree
  exact hle.trans (of_decide_eq_true hfree)

/-- **Leases are exclusive.** In a run, a claim hands an item out, other calls follow, among them
extension commits that each cover the whole item or do not concern it, and a second claim within the
lease hands out an item of the same id. Then it is extension work, and it was completed in between; a
compaction or a cleanup is never handed out twice within a lease. -/
theorem claim_exclusive_of_exec {mode : CompactionMode} {ids : IdInstance} {calls between : List TimedCall}
    {c c' : TimedCall} {s s₁ s₂ s₃ : EphemeralServiceImpl} {result result' : ServiceAnswer}
    {item item' : ClaimedWork} (hrun : Run.exec step (new mode ids) calls = some s)
    (hfirst : s.answer c.now c.call = some (result, s₁)) (hitem : item ∈ claimedWork result)
    (hbetween : Run.exec step s₁ between = some s₂)
    (hwhole : Run.Along step (CommitsWhole item) s₁ between)
    (hsecond : s₂.answer c'.now c'.call = some (result', s₃)) (hitem' : item' ∈ claimedWork result')
    (hid : item'.id = item.id) (hsoon : c'.now < c.now + workClaimLeaseLengthMs) :
    ∃ work, item = .extension work ∧ ∃ earlier d later mid, between = earlier ++ d :: later ∧
      Run.exec step s₁ earlier = some mid ∧ mid.CompletesItem d work := by
  have hs₁ : Run.exec step (new mode ids) (calls ++ [c]) = some s₁ :=
    Run.exec_snoc_eq_some.mpr ⟨s, hrun, Option.map_eq_some_iff.mpr ⟨_, hfirst, rfl⟩⟩
  have hs₂ : Run.exec step (new mode ids) ((calls ++ [c]) ++ between) = some s₂ :=
    Run.exec_append_eq_some.mpr ⟨s₁, hs₁, hbetween⟩
  obtain ⟨slot, hout, hextension⟩ := handedOut_of_answer (cleanupIds_of_exec hrun).2 hfirst hitem
  obtain ⟨slot', hout', -⟩ := handedOut_of_answer (cleanupIds_of_exec hs₂).2 hsecond hitem'
  rw [hid] at hout'
  rcases guarded_of_exec (hout.guarded (cleanupIds_of_exec hs₁).1) hbetween with
    hguard | ⟨hslot, earlier, d, later, mid, commit, rfl, hmid, hcommit⟩
  · exact absurd (hout'.expired hguard) (not_le.mpr hsoon)
  · obtain ⟨work, rfl⟩ := hextension hslot
    exact ⟨work, rfl, earlier, d, later, mid, rfl, hmid, commit, hcommit, (hwhole.right hmid).1 commit hcommit⟩

/-- An item is handed out, completed, given a new file and handed out again within the lease. -/
theorem claim_exclusive_of_exec_completed : ∃ s s₁ s₂ s₃ item item',
      Run.exec step (new .disabled .counting) [⟨0, commitFile "t" "f1"⟩] = some s ∧
      s.answer 0 (.getExtensionWorkItems "es") = some (.extensionWork [item], s₁) ∧
      Run.exec step s₁ [⟨1, coverFile "t" "f1"⟩, ⟨2, commitFile "t" "f2"⟩] = some s₂ ∧
      s₂.answer 3 (.getExtensionWorkItems "es") = some (.extensionWork [item'], s₃) ∧
      item'.id = item.id ∧ ∃ earlier d later mid,
        [⟨1, coverFile "t" "f1"⟩, ⟨2, commitFile "t" "f2"⟩] = earlier ++ d :: later ∧
        Run.exec step s₁ earlier = some mid ∧ mid.CompletesItem d item := by
  obtain ⟨s, hs, s₂, hs₂, hitems, hitems'⟩ :
      ∃ s, Run.exec step (new .disabled .counting) [⟨0, commitFile "t" "f1"⟩] = some s ∧
      ∃ s₂, Run.exec step (s.getExtensionWorkItems 0 "es").2
          [⟨1, coverFile "t" "f1"⟩, ⟨2, commitFile "t" "f2"⟩] = some s₂ ∧
        (s.getExtensionWorkItems 0 "es").1.map (fun item => (item.id, item.paths)) = [("2", ["f1"])] ∧
        (s₂.getExtensionWorkItems 3 "es").1.map (·.id) = ["2"] := by decide +kernel
  obtain ⟨item, hlist, hitem⟩ := map_eq_singleton_iff.mp hitems
  obtain ⟨item', hlist', hitem'⟩ := map_eq_singleton_iff.mp hitems'
  obtain ⟨hid, hpaths⟩ := Prod.mk.inj hitem
  let c : TimedCall := ⟨0, .getExtensionWorkItems "es"⟩
  let c' : TimedCall := ⟨3, .getExtensionWorkItems "es"⟩
  have hanswer : s.answer c.now c.call = some (.extensionWork [item], (s.getExtensionWorkItems 0 "es").2) := by
    rw [← hlist]
    rfl
  have hanswer' : s₂.answer c'.now c'.call = some (.extensionWork [item'], (s₂.getExtensionWorkItems 3 "es").2) := by
    rw [← hlist']
    rfl
  have hmem : ClaimedWork.extension item ∈ claimedWork (.extensionWork [item]) := mem_singleton_self _
  have hmem' : ClaimedWork.extension item' ∈ claimedWork (.extensionWork [item']) := mem_singleton_self _
  have hwhole : Run.Along step (CommitsWhole (.extension item)) (s.getExtensionWorkItems 0 "es").2
      [⟨1, coverFile "t" "f1"⟩, ⟨2, commitFile "t" "f2"⟩] := by
    refine ⟨fun commit hcommit => ?_, fun _ _ => ⟨fun commit hcommit => ?_, fun _ _ => trivial⟩⟩
    · obtain ⟨tableName, hcall, -⟩ := hcommit
      cases hcall
      rw [hpaths]
      decide
    · obtain ⟨tableName, hcall, -⟩ := hcommit
      cases hcall
  obtain ⟨work, hwork, hcompleted⟩ := claim_exclusive_of_exec hs hanswer hmem hs₂ hwhole hanswer' hmem'
    (hitem'.trans hid.symm) (by decide)
  cases hwork
  exact ⟨s, _, s₂, _, item, item', hs, hanswer, hs₂, hanswer', hitem'.trans hid.symm, hcompleted⟩

/-- While the item with `f1` is leased, a checkpoint with another file is added, and that file is
covered. -/
def otherFileCalls : List TimedCall :=
  [⟨1, .addCheckpoint {
      tableName := "t", checkpointId := "added", schema := .minimal, speedboatMetadata := some ⟨{
      filePaths := ["g"], sizes := [1], schemas := [.minimal], fileSchemas := [0] }⟩ }⟩,
    ⟨2, coverFile "t" "g"⟩]

/-- The commit of the other file frees the item, which is handed out a second time, with the same id
and the same file. -/
theorem claim_not_exclusive : ∃ s s₁ s₂ s₃ item item',
      Run.exec step (new .disabled .counting) [⟨0, commitFile "t" "f1"⟩] = some s ∧
      s.answer 0 (.getExtensionWorkItems "es") = some (.extensionWork [item], s₁) ∧
      Run.exec step s₁ otherFileCalls = some s₂ ∧
      s₂.answer 3 (.getExtensionWorkItems "es") = some (.extensionWork [item'], s₃) ∧
      item'.id = item.id ∧ item.paths = ["f1"] ∧ item'.paths = ["f1"] ∧
      ∀ d ∈ otherFileCalls, ∀ t : EphemeralServiceImpl, ¬ t.CompletesItem d item := by
  obtain ⟨s, hs, s₂, hs₂, hitems, hitems'⟩ :
      ∃ s, Run.exec step (new .disabled .counting) [⟨0, commitFile "t" "f1"⟩] = some s ∧
      ∃ s₂, Run.exec step (s.getExtensionWorkItems 0 "es").2 otherFileCalls = some s₂ ∧
        (s.getExtensionWorkItems 0 "es").1.map (fun item => (item.id, item.paths)) = [("2", ["f1"])] ∧
        (s₂.getExtensionWorkItems 3 "es").1.map (fun item => (item.id, item.paths)) = [("2", ["f1"])] := by
    decide +kernel
  obtain ⟨item, hlist, hitem⟩ := map_eq_singleton_iff.mp hitems
  obtain ⟨item', hlist', hitem'⟩ := map_eq_singleton_iff.mp hitems'
  obtain ⟨hid, hpaths⟩ := Prod.mk.inj hitem
  obtain ⟨hid', hpaths'⟩ := Prod.mk.inj hitem'
  refine ⟨s, (s.getExtensionWorkItems 0 "es").2, s₂, (s₂.getExtensionWorkItems 3 "es").2, item, item', hs,
    ?_, hs₂, ?_, hid'.trans hid.symm, hpaths, hpaths', fun d hd t hcompletes => ?_⟩
  · rw [← hlist]
    rfl
  · rw [← hlist']
    rfl
  obtain ⟨commit, ⟨tableName, hcall, -⟩, hcovers⟩ := hcompletes
  have hf1 : "f1" ∈ commit.files := hcovers "f1" (hpaths ▸ mem_singleton_self _)
  rcases mem_cons.mp hd with rfl | hd
  · cases hcall
  · obtain rfl := mem_singleton.mp hd
    cases hcall
    exact absurd hf1 (by decide)

/-! ### The life of a work item -/

theorem confined_of_exec {id : String} (hid : s.board.Confined slot id) (h : Run.exec step s calls = some s') :
    s'.board.Confined slot id :=
  Run.exec_invariant_all (P := fun s => s.board.Confined slot id)
    (fun _ _ _ hinv hstep => hinv.ops (step_ops hstep)) hid h

/-- **One id, one piece of work.** Where two claims of a run hand out items of one id, they are for one slot of
the board, and the item was in the slot all the time between them. -/
theorem claim_continuous_of_exec {mode : CompactionMode} {ids : IdInstance} {calls before after : List TimedCall}
    {c c' : TimedCall} {s s₁ s₂ s₃ s₄ : EphemeralServiceImpl} {result result' : ServiceAnswer}
    {item item' : ClaimedWork} (hrun : Run.exec step (new mode ids) calls = some s)
    (hfirst : s.answer c.now c.call = some (result, s₁)) (hitem : item ∈ claimedWork result)
    (hbefore : Run.exec step s₁ before = some s₂) (hafter : Run.exec step s₂ after = some s₃)
    (hsecond : s₃.answer c'.now c'.call = some (result', s₄)) (hitem' : item' ∈ claimedWork result')
    (hid : item'.id = item.id) :
    ∃ slot, HandedOut s s₁ c.now slot item.id ∧ (∃ lease, s₂.board.held slot = some (item.id, lease)) ∧
      HandedOut s₃ s₄ c'.now slot item.id := by
  have hs₁ : Run.exec step (new mode ids) (calls ++ [c]) = some s₁ :=
    Run.exec_snoc_eq_some.mpr ⟨s, hrun, Option.map_eq_some_iff.mpr ⟨_, hfirst, rfl⟩⟩
  have hs₃ : Run.exec step (new mode ids) ((calls ++ [c]) ++ before ++ after) = some s₃ :=
    Run.exec_append_eq_some.mpr ⟨s₂, Run.exec_append_eq_some.mpr ⟨s₁, hs₁, hbefore⟩, hafter⟩
  obtain ⟨slot, hout, -⟩ := handedOut_of_answer (cleanupIds_of_exec hrun).2 hfirst hitem
  obtain ⟨slot', hout', -⟩ := handedOut_of_answer (cleanupIds_of_exec hs₃).2 hsecond hitem'
  rw [hid] at hout'
  obtain ⟨_, hheld', -⟩ := hout'.free
  have hdistinct := distinct_of_exec hs₁
  have hconfined : s₁.board.Confined slot item.id :=
    ⟨hdistinct.drawn slot _ hout.leased, fun _ _ hheld => hdistinct.unique _ _ _ _ hheld hout.leased⟩
  have hconfined₂ := confined_of_exec hconfined hbefore
  obtain rfl := (confined_of_exec hconfined₂ hafter).only slot' _ hheld' rfl
  -- An id that had left its slot would be gone for good.
  refine ⟨slot', hout, hconfined₂.held_or_retired.resolve_right fun hretired => ?_, hout'⟩
  exact (retired_of_exec hretired hafter).gone slot' _ hheld' rfl

/-- An item is handed out again when its lease has run out. -/
theorem claim_continuous_of_exec_expired : ∃ s,
    Run.exec step (new .disabled .counting) [⟨0, commitFile "t" "f1"⟩] = some s ∧
    let first := s.getExtensionWorkItems 0 "es"
    let second := first.2.getExtensionWorkItems workClaimLeaseLengthMs "es"
    ∃ item ∈ first.1, ∃ item' ∈ second.1, item'.id = item.id ∧ ∃ slot, HandedOut s first.2 0 slot item.id ∧
      HandedOut first.2 second.2 workClaimLeaseLengthMs slot item.id := by
  obtain ⟨s, hs, hitems⟩ : ∃ s, Run.exec step (new .disabled .counting) [⟨0, commitFile "t" "f1"⟩] = some s ∧
      ∃ item ∈ (s.getExtensionWorkItems 0 "es").1, ∃ item' ∈ ((s.getExtensionWorkItems 0 "es").2.getExtensionWorkItems
        workClaimLeaseLengthMs "es").1, item'.id = item.id := by decide +kernel
  obtain ⟨item, hitem, item', hitem', hid⟩ := hitems
  obtain ⟨slot, hfirst, -, hsecond⟩ := @claim_continuous_of_exec _ _ _ [] [] ⟨0, .getExtensionWorkItems "es"⟩
    ⟨workClaimLeaseLengthMs, .getExtensionWorkItems "es"⟩ s _ _ _ _ _ _ (.extension item) (.extension item') hs rfl
    (mem_map_of_mem hitem) rfl rfl rfl (mem_map_of_mem hitem') hid
  exact ⟨s, hs, item, hitem, item', hitem', hid, slot, hfirst, hsecond⟩

end EphemeralServiceImpl

end PowdrrEngine
