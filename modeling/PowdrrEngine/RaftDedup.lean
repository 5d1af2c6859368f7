import PowdrrEngine.RaftCluster

/-! Acknowledged writes across leader changes. Every node numbers its writes from one, and all nodes write
under one client name, so the first write of a new leader can carry the serial that the state machine has
seen last: it is skipped and answered `Ok`. Where no leader submits a write under the serial of the last
entry of the log, every write answered `Ok` is one that the state machine took. -/

namespace PowdrrEngine

open ReplicatedLog

variable {Text : Type}

namespace RaftCluster

def Took (c : RaftCluster Text) (position : Nat) (write : RaftWrite Text) : Prop :=
  position < c.committed ∧ c.log[position]? = some write ∧ (c.machine position).accepts write.request = true

/-- Every write that was answered `Ok` has been applied to the replicated state machine. -/
def NoLostWrite (c : RaftCluster Text) : Prop := ∀ a ∈ c.answered, c.Took a.1 a.2

def submitFresh (c : RaftCluster Text) : RaftEvent → Prop
  | .submit n => c.leader = some n → ∀ p ∈ (c.nodes n).pending,
      c.log.getLast?.map (·.request.serial) ≠ some p.write.request.serial
  | _ => True

instance (c : RaftCluster Text) (e : RaftEvent) : Decidable (c.submitFresh e) := by
  cases e <;> unfold submitFresh <;> infer_instance

variable {codec : SnapshotCodec Text} {c : RaftCluster Text}

/-- No entry of the log is skipped by the state machine. -/
def FreshLog (c : RaftCluster Text) : Prop := Fresh (c.log.map (·.request))

theorem freshLog_step {e : RaftEvent} {c' : RaftCluster Text} (h : c.FreshLog) (hok : c.submitFresh e)
    (heffect : Effect codec c e c') : c'.FreshLog := by
  cases heffect with
  | elect n kept hcommitted hkept =>
    unfold FreshLog
    rw [List.map_take]
    exact Fresh.take h kept
  | submit n write readAt hpending hleader =>
    unfold FreshLog
    rw [List.map_append]
    refine Fresh.snoc h ?_
    rw [Machine.accepts, decide_eq_true_eq, last_replay, List.getLast?_map, Option.map_map]
    exact hok hleader _ hpending
  | replicate _ _ _ | apply _ _ | refuse _ _ | start _ _ _ _ _ | reject _ _ _ _ | succeed _ _ _ _ _ _
  | fail _ _ _ => exact h

theorem noLostWrite_of_freshLog (hinv : LogInv c) (hfresh : c.FreshLog) : c.NoLostWrite := by
  intro a ha
  obtain ⟨hlt, hget⟩ := hinv.answered a ha
  refine ⟨hlt, hget, ?_⟩
  have haccepts := hfresh a.1 a.2.request (by rw [List.getElem?_map, hget, Option.map_some])
  rw [← List.map_take] at haccepts
  exact haccepts

/-- **Runs.** In every run whose leaders submit under serials other than the last one of the log, no write
that was answered `Ok` is lost. -/
theorem noLostWrite_of_exec {events : List RaftEvent} {c : RaftCluster Text}
    (hok : Run.Along (step codec) submitFresh {} events)
    (hrun : Run.exec (step codec) {} events = some c) : c.NoLostWrite := by
  have hinv : LogInv c ∧ c.FreshLog := by
    refine Run.exec_invariant (P := fun c => LogInv c ∧ c.FreshLog) ?_ ⟨logInv_empty, fresh_nil⟩ hok hrun
    intro c e c' h hfresh hstep
    have heffect := effect_of_step hstep
    exact ⟨logInv_step h.1 heffect, freshLog_step h.2 hfresh heffect⟩
  exact noLostWrite_of_freshLog hinv.1 hinv.2

/-- The first writes of two leaders, one after the other. -/
def firstWrites : List RaftEvent :=
  .elect 0 0 :: writeEvents 0 (aliasCall "t" "a") 0 ++ .elect 1 1 :: .apply 1 :: writeEvents 1 (aliasCall "t" "b") 1

/-- Both carry the serial 1; both are answered `Ok`, the second is skipped. -/
theorem not_noLostWrite_firstWrites : ∃ c,
    Run.exec (step SnapshotCodec.plain) {} firstWrites = some c ∧ ¬ c.NoLostWrite := by
  refine Run.exists_end (p := fun c => ∃ a ∈ c.answered, (c.machine a.1).accepts a.2.request = false)
    (by decide +kernel) ?_
  rintro c - ⟨a, ha, hnot⟩ h
  rw [(h a ha).2.2] at hnot
  cases hnot

/-- Two writes of one leader and the first of the next, whose serial is not that of the second. -/
def laterWrites : List RaftEvent :=
  .elect 0 0 :: writeEvents 0 (aliasCall "t" "a") 0 ++ writeEvents 0 (aliasCall "t" "b") 1 ++
    .elect 1 2 :: .apply 1 :: .apply 1 :: writeEvents 1 (aliasCall "t" "c") 2

theorem noLostWrite_of_exec_laterWrites : ∃ c,
    Run.exec (step SnapshotCodec.plain) {} laterWrites = some c ∧ c.answered.length = 3 ∧ c.NoLostWrite := by
  exact Run.exists_end (p := fun c => c.answered.length = 3) (by decide +kernel) fun c hrun hlength =>
    ⟨hlength, noLostWrite_of_exec (by decide +kernel) hrun⟩

end RaftCluster

end PowdrrEngine
