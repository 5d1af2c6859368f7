import PowdrrEngine.ServiceCommitOps

/-! The work items of the service and their leases. Extension work, compactions and cleanups live in
three places; here they are one board that says which item is held in which slot and until when it is
leased. Every call changes the board by drawing ids, putting fresh items up, taking items down, freeing
the item of an extension commit and leasing free items. -/

namespace PowdrrEngine

open Option Function Dict List

/-- Where a work item is kept. -/
inductive WorkSlot where
  | extension (extension tableName : String)
  | compaction (tableName : String)
  | cleanup (id : String)
  deriving DecidableEq

/-- The id of the item in each slot and the time its lease ends. -/
structure WorkBoard where
  ids : IdInstance
  drawn : Nat
  held : WorkSlot → Option (String × Option Int)

namespace WorkBoard

open EphemeralServiceImpl

section

variable (b : WorkBoard)

def draw : WorkBoard := { b with drawn := b.drawn + 1 }

variable (slot : WorkSlot)

/-- A new item, under an id drawn for it and without a lease. -/
def create : WorkBoard :=
  { b with drawn := b.drawn + 1, held := Function.update b.held slot (some (b.ids.text b.drawn, none)) }

def release : WorkBoard := { b with held := Function.update b.held slot none }

/-- The item of a slot may be claimed again. -/
def reset : WorkBoard := { b with held := Function.update b.held slot ((b.held slot).map fun item => (item.1, none)) }

/-- The items of some slots are leased from `now` on. -/
def claim (now : Int) (p : WorkSlot → Bool) : WorkBoard :=
  { b with held := fun slot => if p slot then
      (b.held slot).map fun item => (item.1, some (claimLeaseExpiresAtMs now)) else b.held slot }

end

/-- The elementary changes that a call makes to the board. -/
inductive Op (c : TimedCall) : WorkBoard → WorkBoard → Prop
  | draw (b) : Op c b b.draw
  | create (b slot) : Op c b (b.create slot)
  | release (b slot) : Op c b (b.release slot)
  | reset {tableName commit} (b) : c.call = .extensionCommit tableName commit →
      Op c b (b.reset (.extension commit.extension tableName))
  | claim (b p) : (∀ slot item, p slot = true → b.held slot = some item →
      leaseIsAvailable c.now item.2 = true) → Op c b (b.claim c.now p)

/-- Any number of elementary changes. -/
abbrev Ops (c : TimedCall) := Relation.ReflTransGen (Op c)

theorem Op.ops {c : TimedCall} {b b' b'' : WorkBoard} (h : Op c b b') (heq : b'' = b') : Ops c b b'' := heq ▸ .single h

end WorkBoard

namespace EphemeralServiceImpl

open WorkBoard

variable {s s' : EphemeralServiceImpl} {c : TimedCall}

def board (s : EphemeralServiceImpl) : WorkBoard where
  ids := s.ids
  drawn := s.drawn
  held
    | .extension extension tableName => ((s.extensionWorkItems.lookup extension).bind
        (·.lookup tableName)).map fun tracker => (tracker.workItem.id, tracker.leaseExpiresAtMs)
    | .compaction tableName => (s.compactionWorkItems.lookup tableName).map fun tracker =>
      (tracker.workItem.id, tracker.leaseExpiresAtMs)
    | .cleanup id => (s.cleanupWorkItems.find? fun tracker => tracker.workItem.id = id).map
        fun tracker => (tracker.workItem.id, tracker.leaseExpiresAtMs)

theorem map_claimed {T : Type} (found : Option T) (claimable : T → Bool) (lease : T → T)
    {view : T → String × Option Int} {now : Int}
    (hlease : ∀ t, view (lease t) = ((view t).1, some (claimLeaseExpiresAtMs now))) :
    (found.map fun t => if claimable t then lease t else t).map view =
      if found.any claimable then
        (found.map view).map fun item => (item.1, some (claimLeaseExpiresAtMs now))
      else found.map view := by
  cases found with
  | none => rfl
  | some t =>
    simp only [map_some, any_some]
    split
    · rw [hlease]
    · rfl

/-! ### Extension work -/

theorem board_storeExtensionTracker (extension tableName : String) (tracker : ExtensionWorkItemTracker) :
    (s.storeExtensionTracker extension tableName tracker).board.held =
      Function.update s.board.held (.extension extension tableName)
        (some (tracker.workItem.id, tracker.leaseExpiresAtMs)) := by
  funext slot
  rw [update_apply]
  cases slot with
  | extension e t =>
    simp only [board, storeExtensionTracker, bind_lookup_insert_nested, WorkSlot.extension.injEq]
    split <;> rfl
  | compaction t => rfl
  | cleanup id => rfl

theorem ops_claimExtensions {items : Dict String ExtensionWorkItemTracker}
    (hitems : s.extensionWorkItems.lookup "es" = some items) :
    Ops c s.board ({ s with extensionWorkItems := s.extensionWorkItems.insert "es" (items.mapValues
      fun _ tracker => if tracker.workItem.hasWork && leaseIsAvailable c.now tracker.leaseExpiresAtMs then
        { tracker with leaseExpiresAtMs := some (claimLeaseExpiresAtMs c.now) } else tracker) } :
      EphemeralServiceImpl).board := by
  let claimable := fun tracker : ExtensionWorkItemTracker =>
    tracker.workItem.hasWork && leaseIsAvailable c.now tracker.leaseExpiresAtMs
  let p : WorkSlot → Bool
    | .extension e t => decide (e = "es") && (items.lookup t).any claimable
    | _ => false
  have hclaim : Op c s.board (s.board.claim c.now p) := by
    refine .claim _ _ fun slot item hp hitem => ?_
    cases slot with
    | extension e t =>
      obtain ⟨he, hany⟩ := Bool.and_eq_true_iff.mp hp
      obtain ⟨tracker, htracker, hfree⟩ := Run.of_any hany
      obtain rfl := of_decide_eq_true he
      simp only [board, hitems, bind_some, htracker, map_some] at hitem
      cases hitem
      exact (Bool.and_eq_true_iff.mp hfree).2
    | compaction t | cleanup id => cases hp
  refine hclaim.ops (congrArg (WorkBoard.mk s.ids s.drawn) (funext fun slot => ?_))
  cases slot with
  | extension e t =>
    simp only [board, lookup_insert_eq, p]
    by_cases he : e = "es"
    · subst he
      simp only [if_true, hitems, bind_some, lookup_mapValues, decide_true, Bool.true_and]
      exact map_claimed (items.lookup t) claimable _ fun _ => rfl
    · simp [he]
  | compaction t | cleanup id => rfl

/-! ### Compactions and cleanups -/

theorem ops_startCompaction (tableName : String) {item : CompactionWorkItem} (hid : item.id = s.nextId.1) :
    Ops c s.board (s.nextId.2.storeCompactionTracker tableName ⟨item, none⟩).board := by
  refine Op.ops (.create s.board (.compaction tableName))
    (congrArg (WorkBoard.mk s.ids (s.drawn + 1)) (funext fun slot => ?_))
  rw [update_apply]
  cases slot with
  | compaction t =>
    simp only [board, storeCompactionTracker, nextId, lookup_insert_eq, WorkSlot.compaction.injEq]
    split
    · exact congrArg (fun id => some (id, none)) hid
    · rfl
  | extension e t | cleanup id => rfl

theorem board_eraseCompaction (tableName : String) :
    ({ s with compactionWorkItems := s.compactionWorkItems.erase tableName } :
      EphemeralServiceImpl).board = s.board.release (.compaction tableName) := by
  refine congrArg (WorkBoard.mk s.ids s.drawn) (funext fun slot => ?_)
  rw [update_apply]
  cases slot with
  | compaction t =>
    simp only [board, lookup_erase_eq, WorkSlot.compaction.injEq]
    split <;> rfl
  | extension e t | cleanup id => rfl

theorem ops_addCleanup (tableName : String) (files : List String) :
    Ops c s.board ({ s.nextId.2 with cleanupWorkItems :=
      s.cleanupWorkItems ++ [⟨⟨s.nextId.1, tableName, files⟩, none⟩] } : EphemeralServiceImpl).board := by
  cases hused : s.cleanupWorkItems.find? fun tracker => tracker.workItem.id = s.nextId.1 with
  | some tracker =>
    refine Op.ops (.draw s.board) (congrArg (WorkBoard.mk s.ids (s.drawn + 1)) (funext fun slot => ?_))
    cases slot with
    | cleanup id =>
      simp only [board, find?_append]
      by_cases hid : s.nextId.1 = id
      · subst hid
        rw [hused]
        rfl
      · simp [hid]
    | extension e t | compaction t => rfl
  | none =>
    refine Op.ops (.create s.board (.cleanup s.nextId.1))
      (congrArg (WorkBoard.mk s.ids (s.drawn + 1)) (funext fun slot => ?_))
    rw [update_apply]
    cases slot with
    | cleanup id =>
      simp only [board, find?_append, WorkSlot.cleanup.injEq]
      by_cases hid : s.nextId.1 = id
      · subst hid
        rw [hused, if_pos rfl]
        simp
        rfl
      · simp [hid, Ne.symm hid]
    | extension e t | compaction t => rfl

theorem board_cleanupCommit (commit : CleanupCommit) :
    (s.cleanupCommit commit).board = s.board.release (.cleanup commit.id) := by
  refine congrArg (WorkBoard.mk s.ids s.drawn) (funext fun slot => ?_)
  rw [update_apply]
  cases slot with
  | cleanup id =>
    simp only [board, cleanupCommit, find?_filter, WorkSlot.cleanup.injEq]
    split
    · rename_i heq
      subst heq
      simp
    rename_i hne
    congr 2
    funext tracker
    by_cases hid : tracker.workItem.id = id
    · simp [hid, hne]
    · simp [hid]
  | extension e t | compaction t => rfl

theorem ops_claimCompactions : Ops c s.board (s.getCompactionWorkItems c.now).2.board := by
  let p : WorkSlot → Bool
    | .compaction t => (s.compactionWorkItems.lookup t).any fun tracker =>
      leaseIsAvailable c.now tracker.leaseExpiresAtMs
    | _ => false
  have hclaim : Op c s.board (s.board.claim c.now p) := by
    refine .claim _ _ fun slot item hp hitem => ?_
    cases slot with
    | compaction t =>
      obtain ⟨tracker, htracker, hfree⟩ := Run.of_any hp
      simp only [board, htracker, map_some] at hitem
      cases hitem
      exact hfree
    | extension e t | cleanup id => cases hp
  refine hclaim.ops (congrArg (WorkBoard.mk s.ids s.drawn) (funext fun slot => ?_))
  cases slot with
  | compaction t =>
    simp only [board, getCompactionWorkItems, lookup_mapValues]
    exact map_claimed (s.compactionWorkItems.lookup t) _ _ fun _ => rfl
  | extension e t | cleanup id => rfl

theorem ops_claimCleanups : Ops c s.board (s.getCleanupWorkItems c.now).2.board := by
  let p : WorkSlot → Bool
    | .cleanup id => (s.cleanupWorkItems.find? fun tracker => tracker.workItem.id = id).any
        (s.cleanupClaimable c.now)
    | _ => false
  have hclaim : Op c s.board (s.board.claim c.now p) := by
    refine .claim _ _ fun slot item hp hitem => ?_
    cases slot with
    | cleanup id =>
      obtain ⟨tracker, htracker, hfree⟩ := Run.of_any hp
      simp only [board, htracker, map_some] at hitem
      cases hitem
      exact (Bool.and_eq_true_iff.mp hfree).2
    | extension e t | compaction t => cases hp
  refine hclaim.ops (congrArg (WorkBoard.mk s.ids s.drawn) (funext fun slot => ?_))
  cases slot with
  | cleanup id =>
    have hkeep : ((fun tracker : CleanupWorkItemTracker => decide (tracker.workItem.id = id)) ∘
        fun tracker => if s.cleanupClaimable c.now tracker then
          { tracker with leaseExpiresAtMs := some (claimLeaseExpiresAtMs c.now) } else tracker) =
        fun tracker => decide (tracker.workItem.id = id) := by
      funext tracker
      simp only [comp_apply]
      split <;> rfl
    simp only [board, getCleanupWorkItems, find?_map, hkeep]
    exact map_claimed (s.cleanupWorkItems.find? _) (s.cleanupClaimable c.now) _ fun _ => rfl
  | extension e t | compaction t => rfl

/-! ### Calls -/

/-- **What an elementary change of the service is on the board.** -/
theorem CommitOp.boardOps (h : CommitOp c s s') : Ops c s.board s'.board := by
  cases h with
  | draw => exact .single (.draw s.board)
  | startWork _ tableName _ hid =>
    refine Op.ops (.create s.board (.extension "es" tableName))
      (congrArg (WorkBoard.mk s.ids (s.drawn + 1)) ((board_storeExtensionTracker ..).trans ?_))
    rw [hid]
    rfl
  | @moreWork _ tableName old tracker _ hold hid hlease =>
    -- files are merged into the item that is there: its id and its lease stay
    have hsame : some (tracker.workItem.id, tracker.leaseExpiresAtMs) = s.board.held (.extension "es" tableName) := by
      simp only [board, hold, map_some, hid, hlease]
    have hheld := s.board_storeExtensionTracker "es" tableName tracker
    rw [hsame, update_eq_self] at hheld
    have hboard : (s.storeExtensionTracker "es" tableName tracker).board = s.board :=
      congrArg (WorkBoard.mk s.ids s.drawn) hheld
    rw [hboard]
  | @lessWork _ tableName commit tracker item hcall htracker hid =>
    have hold : s.board.held (.extension commit.extension tableName) = some (item.id, tracker.leaseExpiresAtMs) := by
      simp only [board, htracker, map_some, hid]
    refine Op.ops (.reset s.board hcall)
      (congrArg (WorkBoard.mk s.ids s.drawn) ((board_storeExtensionTracker ..).trans ?_))
    rw [hold, map_some]
  | startCompaction _ tableName _ hid => exact ops_startCompaction tableName hid
  | finishCompaction _ tableName files =>
    refine Relation.ReflTransGen.head (.release s.board (.compaction tableName)) ?_
    rw [← board_eraseCompaction]
    exact ops_addCleanup tableName files
  | claimExtensions hitems => exact ops_claimExtensions hitems
  | claimCompactions => exact ops_claimCompactions
  | claimCleanups => exact ops_claimCleanups
  | cleanup _ commit =>
    rw [board_cleanupCommit]
    exact .single (.release _ _)
  | _ => exact .refl

theorem CommitOps.boardOps (h : CommitOps c s s') : Ops c s.board s'.board := by
  induction h with
  | refl => exact .refl
  | tail _ hop ih => exact ih.trans hop.boardOps

/-- **What a call does to the board.** -/
theorem step_ops (h : s.step c = some s') : Ops c s.board s'.board := by
  cases hkind : c.call.isCoordination with
  | true =>
    rw [(step_coordinationStep hkind h).coordinationOnly]
    exact .refl
  | false => exact (step_commitOps hkind h).boardOps

end EphemeralServiceImpl

/-! ### Ids on the board -/

namespace WorkBoard

variable {id : String}

/-- Every id on the board was drawn, and no two slots hold the same one. -/
structure Distinct (b : WorkBoard) : Prop where
  drawn : ∀ slot item, b.held slot = some item → ∃ n < b.drawn, item.1 = b.ids.text n
  unique : ∀ slot slot' item item', b.held slot = some item → b.held slot' = some item' →
    item.1 = item'.1 → slot = slot'

/-- An id that was drawn and that no slot holds (any more). -/
structure Retired (b : WorkBoard) (id : String) : Prop where
  drawn : ∃ n < b.drawn, id = b.ids.text n
  gone : ∀ slot item, b.held slot = some item → item.1 ≠ id

variable {b b' : WorkBoard} {c : TimedCall}

theorem Op.from (h : Op c b b') : b'.ids = b.ids ∧ b.drawn ≤ b'.drawn ∧ ∀ slot item', b'.held slot = some item' →
      (∃ item, b.held slot = some item ∧ item'.1 = item.1) ∨
        (b'.held = (b.create slot).held ∧ b'.drawn = b.drawn + 1) := by
  have hupdate : ∀ {slot slot' : WorkSlot} {v : Option (String × Option Int)} {item' : String × Option Int},
      Function.update b.held slot' v slot = some item' →
      (slot = slot' ∧ v = some item') ∨ b.held slot = some item' := by
    intro slot slot' v item' hitem
    rw [update_apply] at hitem
    split at hitem
    · exact Or.inl ⟨‹_›, hitem⟩
    · exact Or.inr hitem
  cases h with
  | draw => exact ⟨rfl, Nat.le_succ _, fun slot item h => Or.inl ⟨item, h, rfl⟩⟩
  | create slot' =>
    refine ⟨rfl, Nat.le_succ _, fun slot item hitem => ?_⟩
    rcases hupdate hitem with ⟨rfl, -⟩ | hold
    · exact Or.inr ⟨rfl, rfl⟩
    · exact Or.inl ⟨item, hold, rfl⟩
  | release slot' =>
    refine ⟨rfl, le_rfl, fun slot item hitem => ?_⟩
    rcases hupdate hitem with ⟨-, hnone⟩ | hold
    · cases hnone
    · exact Or.inl ⟨item, hold, rfl⟩
  | @reset tableName commit _ _ =>
    refine ⟨rfl, le_rfl, fun slot item hitem => ?_⟩
    rcases hupdate hitem with ⟨rfl, hsome⟩ | hold
    · obtain ⟨old, hold, rfl⟩ := map_eq_some_iff.mp hsome
      exact Or.inl ⟨old, hold, rfl⟩
    · exact Or.inl ⟨item, hold, rfl⟩
  | claim p _ =>
    refine ⟨rfl, le_rfl, fun slot item hitem => Or.inl ?_⟩
    simp only [WorkBoard.claim] at hitem
    split at hitem
    · obtain ⟨old, hold, rfl⟩ := map_eq_some_iff.mp hitem
      exact ⟨old, hold, rfl⟩
    · exact ⟨item, hitem, rfl⟩

theorem create_held (slot slot' : WorkSlot) : (b.create slot').held slot =
      if slot = slot' then some (b.ids.text b.drawn, none) else b.held slot := by
  simp [create, update_apply]

theorem Distinct.op (h : b.Distinct) (hop : Op c b b') : b'.Distinct := by
  obtain ⟨hids, hdrawn, hfrom⟩ := hop.from
  constructor
  · intro slot item hitem
    rw [hids]
    rcases hfrom slot item hitem with ⟨old, hold, hid⟩ | ⟨hheld, hnext⟩
    · obtain ⟨n, hn, htext⟩ := h.drawn slot old hold
      exact ⟨n, hn.trans_le hdrawn, hid.trans htext⟩
    · rw [hheld, create_held, if_pos rfl] at hitem
      cases hitem
      exact ⟨b.drawn, by omega, rfl⟩
  intro slot slot' item item' hitem hitem' heq
  have hfresh : ∀ {slot slot' : WorkSlot} {item item' : String × Option Int},
      b'.held slot = some item → b'.held slot' = some item' → item.1 = item'.1 →
      b'.held = (b.create slot).held → slot = slot' := by
    intro slot slot' item item' hitem hitem' heq hheld
    rw [hheld, create_held] at hitem hitem'
    rw [if_pos rfl] at hitem
    cases hitem
    split at hitem'
    · exact (‹slot' = slot›).symm
    · obtain ⟨n, hn, htext⟩ := h.drawn slot' item' hitem'
      exact absurd (b.ids.text_injective (heq.trans htext)) hn.ne'
  rcases hfrom slot item hitem with ⟨old, hold, hid⟩ | ⟨hheld, -⟩
  · rcases hfrom slot' item' hitem' with ⟨old', hold', hid'⟩ | ⟨hheld', -⟩
    · exact h.unique slot slot' old old' hold hold' (hid.symm.trans (heq.trans hid'))
    · exact (hfresh hitem' hitem heq.symm hheld').symm
  · exact hfresh hitem hitem' heq hheld

theorem Retired.op (h : b.Retired id) (hop : Op c b b') : b'.Retired id := by
  obtain ⟨hids, hdrawn, hfrom⟩ := hop.from
  obtain ⟨n, hn, htext⟩ := h.drawn
  refine ⟨⟨n, hn.trans_le hdrawn, hids ▸ htext⟩, fun slot item hitem => ?_⟩
  rcases hfrom slot item hitem with ⟨old, hold, hid⟩ | ⟨hheld, -⟩
  · rw [hid]
    exact h.gone slot old hold
  · rw [hheld, create_held, if_pos rfl] at hitem
    cases hitem
    intro heq
    exact absurd (b.ids.text_injective (heq.trans htext)) hn.ne'

theorem Distinct.retired_release (h : b.Distinct) {slot : WorkSlot} {item : String × Option Int}
    (hitem : b.held slot = some item) : (b.release slot).Retired item.1 := by
  refine ⟨h.drawn slot item hitem, fun slot' item' hitem' heq => ?_⟩
  simp only [release, update_apply] at hitem'
  split at hitem'
  · cases hitem'
  · rename_i hne
    exact hne (h.unique slot' slot item' item hitem' hitem heq)

theorem Distinct.ops (h : b.Distinct) (hops : Ops c b b') : b'.Distinct := by
  induction hops with
  | refl => exact h
  | tail _ hop ih => exact ih.op hop

theorem Retired.ops (h : b.Retired id) (hops : Ops c b b') : b'.Retired id := by
  induction hops with
  | refl => exact h
  | tail _ hop ih => exact ih.op hop

end WorkBoard

namespace EphemeralServiceImpl

variable {calls : List TimedCall} {s : EphemeralServiceImpl}

theorem distinct_new (mode : CompactionMode) (ids : IdInstance) : (new mode ids).board.Distinct := by
  have hempty : ∀ slot, (new mode ids).board.held slot = none := by
    intro slot
    cases slot with
    | extension e t =>
      change (((Dict.single "es" (∅ : Dict String ExtensionWorkItemTracker)).lookup e).bind (·.lookup t)).map _ = none
      cases he : (Dict.single "es" (∅ : Dict String ExtensionWorkItemTracker)).lookup e with
      | none => rfl
      | some items =>
        have hmem := lookup_eq_some_iff.mp he
        simp only [Dict.single, AList.singleton_entries, mem_singleton, Sigma.mk.injEq, heq_eq_eq] at hmem
        rw [hmem.2]
        rfl
    | compaction t | cleanup id => rfl
  constructor
  · intro slot item hitem
    rw [hempty] at hitem
    cases hitem
  · intro slot slot' item item' hitem
    rw [hempty] at hitem
    cases hitem

/-- **Ids on the board are drawn and distinct**, in every state reached. -/
theorem distinct_of_exec {mode : CompactionMode} {ids : IdInstance}
    (h : Run.exec step (new mode ids) calls = some s) : s.board.Distinct :=
  Run.exec_invariant_all (P := fun s => s.board.Distinct)
    (fun _ _ _ hinv hstep => hinv.ops (step_ops hstep)) (distinct_new mode ids) h

/-- **What is off the board stays off.** -/
theorem retired_of_exec {s' : EphemeralServiceImpl} {id : String} (hid : s.board.Retired id)
    (h : Run.exec step s calls = some s') : s'.board.Retired id :=
  Run.exec_invariant_all (P := fun s => s.board.Retired id)
    (fun _ _ _ hinv hstep => hinv.ops (step_ops hstep)) hid h

end EphemeralServiceImpl

end PowdrrEngine
