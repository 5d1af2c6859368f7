import PowdrrEngine.LibList
import PowdrrEngine.LibReplicatedLog
import PowdrrEngine.RaftSnapshot

/-! The Raft-backed metadata service as a cluster of nodes. Consensus itself is taken as given: there is
one log, its committed part never changes, an election keeps at least that part, and every node applies
the committed part in order. A write reads the snapshot of the node's own state machine, runs the call on
it and submits the snapshot that it leaves, under a serial from the node's own counter but a client name
that all nodes share. -/

namespace PowdrrEngine

open ReplicatedLog Option

abbrev NodeId := Nat

/-- A write of the log. The state machine sees the request; the call and its answer say where the request
comes from. -/
structure RaftWrite (Text : Type) where
  call : LocalCall
  answer : ServiceAnswer
  request : Request Text

/-- How far a write has got: not yet in the log, in the log, or cut off the log by an election. -/
inductive WriteStage where
  | unsent
  | logged (position : Nat)
  | lost
  deriving DecidableEq

/-- A write that is not answered yet, with the length of the log its snapshot was read from. -/
structure PendingWrite (Text : Type) where
  write : RaftWrite Text
  readAt : Nat
  stage : WriteStage

/-- One node: the counter of its writes, how much of the log it has applied, and the write that holds its
write lock. -/
structure RaftNode (Text : Type) where
  writeSerial : Nat := 0
  applied : Nat := 0
  pending : Option (PendingWrite Text) := none

/-- The cluster, with the writes that were answered `Ok` and their positions in the log. -/
structure RaftCluster (Text : Type) where
  log : List (RaftWrite Text) := []
  committed : Nat := 0
  leader : Option NodeId := none
  nodes : NodeId → RaftNode Text := fun _ => {}
  answered : List (Nat × RaftWrite Text) := []

inductive RaftEvent where
  /-- A node becomes leader and brings a log of some length. -/
  | elect (node : NodeId) (kept : Nat)
  /-- The log is committed up to some length. -/
  | replicate (upTo : Nat)
  /-- A node applies one more committed entry. -/
  | apply (node : NodeId)
  /-- A node takes its write lock, reads its snapshot and runs a call on it. -/
  | start (node : NodeId) (call : LocalCall)
  /-- The node submits the write; only the leader's is taken. -/
  | submit (node : NodeId)
  /-- The write has been applied by its node and is answered `Ok`. -/
  | succeed (node : NodeId)
  /-- The write is answered with an error. -/
  | fail (node : NodeId)

variable {Text : Type}

/-- A write behind the kept part of the log is lost. -/
def PendingWrite.truncate (kept : Nat) (p : PendingWrite Text) : PendingWrite Text :=
  match p.stage with
  | .logged position => if position < kept then p else { p with stage := .lost }
  | _ => p

def RaftNode.truncate (kept : Nat) (node : RaftNode Text) : RaftNode Text :=
  { node with pending := node.pending.map (·.truncate kept) }

namespace RaftCluster

variable (c : RaftCluster Text) {c' : RaftCluster Text} {e : RaftEvent}

def setNode (n : NodeId) (node : RaftNode Text) : RaftCluster Text :=
  { c with nodes := fun m => if m = n then node else c.nodes m }

/-- The state machine after the first entries of the log. -/
def machine (length : Nat) : Machine Text := replay ((c.log.take length).map (·.request))

/-- The body of `raft_write_state!` up to `client_write`: the write that a call makes of the node's
snapshot, or none where it is answered with an error before. -/
def prepare (codec : SnapshotCodec Text) (node : RaftNode Text) (call : LocalCall) : Option (RaftWrite Text) := do
  let snapshot ← (codec.readSnapshotState (c.machine node.applied).status).toOption
  let (answer, snapshot) ← snapshot.run call
  let text ← (codec.serializeSnapshotState snapshot).toOption
  some ⟨call, answer, ⟨node.writeSerial + 1, text⟩⟩

/-- One event; none where it cannot happen. -/
def step (codec : SnapshotCodec Text) (c : RaftCluster Text) : RaftEvent → Option (RaftCluster Text)
  | .elect n kept =>
    if c.committed ≤ kept ∧ kept ≤ c.log.length then
      let log := c.log.take kept
      some { c with log, leader := some n, nodes := fun m => (c.nodes m).truncate kept }
    else none
  | .replicate upTo =>
    if c.committed ≤ upTo ∧ upTo ≤ c.log.length then some { c with committed := upTo } else none
  | .apply n =>
    let node := c.nodes n
    if node.applied < c.committed then some (c.setNode n { node with applied := node.applied + 1 })
    else none
  | .start n call =>
    let node := c.nodes n
    if call.call.isWrite = false ∨ node.pending.isSome then none
    else
      match c.prepare codec node call with
      | none => some c
      | some write =>
        let pending := some ⟨write, node.applied, .unsent⟩
        some (c.setNode n { node with writeSerial := node.writeSerial + 1, pending })
  | .submit n =>
    let node := c.nodes n
    match node.pending with
    | some ⟨write, readAt, .unsent⟩ =>
      if c.leader = some n then
        let c' := c.setNode n { node with pending := some ⟨write, readAt, .logged c.log.length⟩ }
        some { c' with log := c.log ++ [write] }
      else some (c.setNode n { node with pending := none })
    | _ => none
  | .succeed n =>
    let node := c.nodes n
    match node.pending with
    | some ⟨write, _, .logged position⟩ =>
      if position < node.applied then
        let c' := c.setNode n { node with pending := none }
        some { c' with answered := c.answered ++ [(position, write)] }
      else none
    | _ => none
  | .fail n =>
    let node := c.nodes n
    if node.pending.isSome then some (c.setNode n { node with pending := none }) else none

/-! ### What an event does -/

inductive Effect (codec : SnapshotCodec Text) (c : RaftCluster Text) : RaftEvent → RaftCluster Text → Prop
  | elect (n kept : Nat) (hcommitted : c.committed ≤ kept) (hkept : kept ≤ c.log.length) :
      Effect codec c (.elect n kept) { c with
        log := c.log.take kept, leader := some n, nodes := fun m => (c.nodes m).truncate kept }
  | replicate (upTo : Nat) (hcommitted : c.committed ≤ upTo) (hupTo : upTo ≤ c.log.length) :
      Effect codec c (.replicate upTo) { c with committed := upTo }
  | apply (n : NodeId) (happlied : (c.nodes n).applied < c.committed) :
      Effect codec c (.apply n) (c.setNode n { c.nodes n with applied := (c.nodes n).applied + 1 })
  | refuse (n : NodeId) (call : LocalCall) : Effect codec c (.start n call) c
  | start (n : NodeId) (call : LocalCall) (write : RaftWrite Text) (hnone : (c.nodes n).pending = none)
      (hprepare : c.prepare codec (c.nodes n) call = some write) :
      Effect codec c (.start n call) (c.setNode n
        ⟨(c.nodes n).writeSerial + 1, (c.nodes n).applied, some ⟨write, (c.nodes n).applied, .unsent⟩⟩)
  | submit (n : NodeId) (write : RaftWrite Text) (readAt : Nat)
      (hpending : (c.nodes n).pending = some ⟨write, readAt, .unsent⟩) (hleader : c.leader = some n) :
      Effect codec c (.submit n) { c.setNode n { c.nodes n with
        pending := some ⟨write, readAt, .logged c.log.length⟩ } with log := c.log ++ [write] }
  | reject (n : NodeId) (p : PendingWrite Text) (hpending : (c.nodes n).pending = some p)
      (hunsent : p.stage = .unsent) :
      Effect codec c (.submit n) (c.setNode n { c.nodes n with pending := none })
  | succeed (n : NodeId) (write : RaftWrite Text) (readAt position : Nat)
      (hpending : (c.nodes n).pending = some ⟨write, readAt, .logged position⟩)
      (happlied : position < (c.nodes n).applied) :
      Effect codec c (.succeed n) { c.setNode n { c.nodes n with pending := none } with
        answered := c.answered ++ [(position, write)] }
  | fail (n : NodeId) (p : PendingWrite Text) (hpending : (c.nodes n).pending = some p) :
      Effect codec c (.fail n) (c.setNode n { c.nodes n with pending := none })

variable {codec : SnapshotCodec Text} {c : RaftCluster Text}

theorem effect_of_step (h : step codec c e = some c') : Effect codec c e c' := by
  cases e with
  | elect n kept =>
    obtain ⟨⟨hcommitted, hkept⟩, h⟩ := ite_none_right_eq_some.mp h
    cases h
    exact .elect n kept hcommitted hkept
  | replicate upTo =>
    obtain ⟨⟨hcommitted, hupTo⟩, h⟩ := ite_none_right_eq_some.mp h
    cases h
    exact .replicate upTo hcommitted hupTo
  | apply n =>
    obtain ⟨happlied, h⟩ := ite_none_right_eq_some.mp h
    cases h
    exact .apply n happlied
  | start n call =>
    obtain ⟨hfree, h⟩ := ite_none_left_eq_some.mp h
    have hnone : (c.nodes n).pending = none := by
      rw [not_or, not_isSome_iff_eq_none] at hfree
      exact hfree.2
    cases hprepare : c.prepare codec (c.nodes n) call with
    | none =>
      rw [hprepare] at h
      cases h
      exact .refuse n call
    | some write =>
      rw [hprepare] at h
      cases h
      exact .start n call write hnone hprepare
  | submit n =>
    simp only [step] at h
    split at h
    · rename_i write readAt hpending
      split at h
      · rename_i hleader
        cases h
        exact .submit n write readAt hpending hleader
      · cases h
        exact .reject n _ hpending rfl
    · cases h
  | succeed n =>
    simp only [step] at h
    split at h
    · rename_i write readAt position hpending
      obtain ⟨happlied, h⟩ := ite_none_right_eq_some.mp h
      cases h
      exact .succeed n write readAt position hpending happlied
    · cases h
  | fail n =>
    obtain ⟨hsome, h⟩ := ite_none_right_eq_some.mp h
    obtain ⟨p, hpending⟩ := isSome_iff_exists.mp hsome
    cases h
    exact .fail n p hpending

/-! ### The log and what refers to it -/

/-- No node is ahead of the committed part of the log, a pending write that is in the log is where it
says, and so is every answered write, in the committed part. -/
structure LogInv (c : RaftCluster Text) : Prop where
  committed_le : c.committed ≤ c.log.length
  applied_le : ∀ n, (c.nodes n).applied ≤ c.committed
  logged : ∀ n p position, (c.nodes n).pending = some p → p.stage = .logged position → c.log[position]? = some p.write
  answered : ∀ a ∈ c.answered, a.1 < c.committed ∧ c.log[a.1]? = some a.2

theorem logInv_empty : LogInv ({} : RaftCluster Text) where
  committed_le := Nat.le_refl 0
  applied_le := fun _ => Nat.le_refl 0
  logged := fun _ _ _ h => by cases h
  answered := fun _ h => absurd h List.not_mem_nil

theorem LogInv.setNode (h : LogInv c) {n : NodeId} {node : RaftNode Text} (happlied : node.applied ≤ c.committed)
    (hlogged : ∀ p position, node.pending = some p → p.stage = .logged position →
      c.log[position]? = some p.write) : LogInv (c.setNode n node) where
  committed_le := h.committed_le
  applied_le := by
    intro m
    unfold RaftCluster.setNode
    dsimp only
    split
    · exact happlied
    · exact h.applied_le m
  logged := by
    intro m p position hp
    unfold RaftCluster.setNode at hp ⊢
    dsimp only at hp ⊢
    split at hp
    · exact hlogged p position hp
    · exact h.logged m p position hp
  answered := h.answered

theorem PendingWrite.truncate_logged {kept position : Nat} {p : PendingWrite Text}
    (h : (p.truncate kept).stage = .logged position) :
    p.stage = .logged position ∧ position < kept ∧ p.truncate kept = p := by
  obtain ⟨write, readAt, stage⟩ := p
  unfold PendingWrite.truncate at h ⊢
  cases stage with
  | unsent => cases h
  | lost => cases h
  | logged q =>
    dsimp only at h ⊢
    by_cases hq : q < kept
    · rw [if_pos hq] at h ⊢
      cases h
      exact ⟨rfl, hq, rfl⟩
    · rw [if_neg hq] at h
      cases h

theorem logInv_step (h : LogInv c) (heffect : Effect codec c e c') : LogInv c' := by
  have hnone : ∀ n, LogInv (c.setNode n { c.nodes n with pending := none }) := fun n =>
    h.setNode (h.applied_le n) (fun _ _ hp => by cases hp)
  cases heffect with
  | elect n kept hcommitted hkept =>
    refine ⟨?_, h.applied_le, ?_, ?_⟩
    · dsimp only
      rw [List.length_take]
      omega
    · intro m p position hp hstage
      obtain ⟨q, hq, rfl⟩ := map_eq_some_iff.mp hp
      obtain ⟨hqstage, hlt, heq⟩ := PendingWrite.truncate_logged hstage
      rw [heq, List.getElem?_take_of_lt hlt]
      exact h.logged m q position hq hqstage
    · intro a ha
      obtain ⟨hlt, hget⟩ := h.answered a ha
      exact ⟨hlt, (List.getElem?_take_of_lt (by omega)).trans hget⟩
  | replicate upTo hcommitted hupTo =>
    refine ⟨hupTo, fun n => (h.applied_le n).trans hcommitted, h.logged, fun a ha => ?_⟩
    obtain ⟨hlt, hget⟩ := h.answered a ha
    exact ⟨hlt.trans_le hcommitted, hget⟩
  | apply n happlied => exact h.setNode happlied (h.logged n)
  | refuse n call => exact h
  | start n call write hpending hprepare =>
    refine h.setNode (h.applied_le n) fun p position hp hstage => ?_
    cases hp
    cases hstage
  | submit n write readAt hpending hleader =>
    have hold : ∀ {position : Nat} {w}, c.log[position]? = some w → (c.log ++ [write])[position]? = some w := by
      intro position w hw
      rw [List.getElem?_append_left (List.getElem?_eq_some_iff.mp hw).1]
      exact hw
    refine ⟨?_, ?_, ?_, fun a ha => ⟨(h.answered a ha).1, hold (h.answered a ha).2⟩⟩
    · exact h.committed_le.trans (by simp)
    · intro m
      unfold RaftCluster.setNode
      dsimp only
      split
      · exact h.applied_le n
      · exact h.applied_le m
    intro m p position hp hstage
    unfold RaftCluster.setNode at hp
    dsimp only at hp ⊢
    split at hp
    · cases hp
      cases hstage
      exact List.getElem?_concat_length
    · exact hold (h.logged m p position hp hstage)
  | reject n p hpending hunsent => exact hnone n
  | succeed n write readAt position hpending happlied =>
    have hset := hnone n
    refine ⟨hset.committed_le, hset.applied_le, hset.logged, fun a ha => ?_⟩
    rcases List.mem_append.mp ha with hold | hnew
    · exact h.answered a hold
    · cases List.mem_singleton.mp hnew
      exact ⟨happlied.trans_le (h.applied_le n), h.logged n _ position hpending rfl⟩
  | fail n p hpending => exact hnone n

/-! ### Runs of two nodes -/

/-- A call that adds an alias, on a node whose clock stands still. -/
def aliasCall (tableName aliasName : String) : LocalCall := ⟨.disabled, .counting, 0, 0, .addAlias tableName aliasName⟩

/-- A write by a leader that is up to date, from its start to its answer, at a position of the log. -/
def writeEvents (n : NodeId) (call : LocalCall) (position : Nat) : List RaftEvent :=
  [.start n call, .submit n, .replicate (position + 1), .apply n, .succeed n]

end RaftCluster

end PowdrrEngine
