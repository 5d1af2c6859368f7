import PowdrrEngine.RaftDedup

/-! Serializability of the writes. A write overwrites the whole snapshot with one that its node made from
the snapshot it had applied, so a leader that is behind the log, or two writes that cross an election, undo
an acknowledged operation. Where every write of the log was made from the whole log before it, the log is
a serial history: replaying it gives what its operations give one after the other, answers included. -/

namespace PowdrrEngine

open ReplicatedLog List
open SnapshotCodec (plain)

variable {Text : Type}

namespace RaftCluster

variable {write : RaftWrite Text} {c' : RaftCluster Text} {n : NodeId} {node : RaftNode Text}
  {position length readAt : Nat} {e : RaftEvent} {kept : Nat} {m : NodeId}

/-- The write is made from the snapshot after the first entries of the log. -/
def MadeAt (codec : SnapshotCodec Text) (c : RaftCluster Text) (length : Nat) (write : RaftWrite Text) : Prop :=
  ∃ snapshot after, codec.readSnapshotState (c.machine length).status = .ok snapshot ∧
    snapshot.run write.call = some (write.answer, after) ∧
    codec.serializeSnapshotState after = .ok write.request.status

/-- A leader submits a write under a fresh serial, made from all of the log; and no write that is in the
log is answered with an error. -/
def serialOk (c : RaftCluster Text) (e : RaftEvent) : Prop :=
  c.submitFresh e ∧
    match e with
    | .submit n => c.leader = some n → ∀ p ∈ (c.nodes n).pending, p.readAt = c.log.length
    | .fail n => ∀ p ∈ (c.nodes n).pending, p.stage = .unsent ∨ p.stage = .lost
    | _ => True

instance (c : RaftCluster Text) : ∀ e, Decidable (c.serialOk e)
  | .elect .. | .replicate _ | .apply _ | .start .. | .submit _ | .succeed _ | .fail _ => instDecidableAnd

def RaftWrite.operation (write : RaftWrite Text) : LocalCall × ServiceAnswer := (write.call, write.answer)

/-- With the log applied, the metadata is what the operations answered `Ok` give one after the other, in
some order, with the answers they got. -/
def Serializable (codec : SnapshotCodec Text) (c : RaftCluster Text) : Prop :=
  ∃ order metadata, order.Perm (c.answered.map fun a => RaftWrite.operation a.2) ∧
    Serial EphemeralServiceSnapshot.run {} order metadata ∧
    codec.readSnapshotState (c.machine c.log.length).status = .ok metadata

variable {codec : SnapshotCodec Text} {c : RaftCluster Text}

/-! ### The log is a serial history -/

/-- Every entry of the log is made from the entries before it, and a write that is not yet in the log is
made from the committed part of it. -/
structure HistoryInv (codec : SnapshotCodec Text) (c : RaftCluster Text) : Prop where
  logged : ∀ position write, c.log[position]? = some write → c.MadeAt codec position write
  unsent : ∀ n p, (c.nodes n).pending = some p → p.stage = .unsent →
    p.readAt ≤ c.committed ∧ c.MadeAt codec p.readAt p.write

theorem MadeAt.of_take_eq (h : c.MadeAt codec length write) (htake : c'.log.take length = c.log.take length) :
    c'.MadeAt codec length write := by
  unfold MadeAt machine at h ⊢
  rw [htake]
  exact h

theorem historyInv_empty : HistoryInv codec ({} : RaftCluster Text) where
  logged := fun _ _ h => by cases h
  unsent := fun _ _ h => by cases h

theorem HistoryInv.setNode (h : HistoryInv codec c) (hunsent : ∀ p, node.pending = some p → p.stage = .unsent →
      p.readAt ≤ c.committed ∧ c.MadeAt codec p.readAt p.write) : HistoryInv codec (c.setNode n node) where
  logged := h.logged
  unsent := by
    intro m p hp
    unfold RaftCluster.setNode at hp ⊢
    dsimp only at hp ⊢
    split at hp
    · exact hunsent p hp
    · exact h.unsent m p hp

theorem PendingWrite.truncate_unsent {p : PendingWrite Text}
    (h : (p.truncate kept).stage = .unsent) : p.stage = .unsent ∧ p.truncate kept = p := by
  obtain ⟨write, readAt, stage⟩ := p
  unfold PendingWrite.truncate at h ⊢
  cases stage with
  | unsent => exact ⟨rfl, rfl⟩
  | lost => cases h
  | logged q =>
    dsimp only at h
    split at h <;> cases h

theorem historyInv_step (hlog : LogInv c) (h : HistoryInv codec c) (hok : c.serialOk e)
    (heffect : Effect codec c e c') :
    HistoryInv codec c' := by
  cases heffect with
  | elect n kept hcommitted hkept =>
    have htake : ∀ {length}, length ≤ kept → (c.log.take kept).take length = c.log.take length := by
      intro length hle
      rw [take_take, Nat.min_eq_left hle]
    refine ⟨fun position write hget => ?_, fun m p hp hstage => ?_⟩
    · have hlt : position < kept := by
        have hlen := (List.getElem?_eq_some_iff.mp hget).1
        rw [length_take] at hlen
        omega
      rw [List.getElem?_take_of_lt hlt] at hget
      exact (h.logged position write hget).of_take_eq (htake hlt.le)
    obtain ⟨q, hq, rfl⟩ := Option.map_eq_some_iff.mp hp
    obtain ⟨hunsent, heq⟩ := PendingWrite.truncate_unsent hstage
    obtain ⟨hread, hmade⟩ := h.unsent m q hq hunsent
    rw [heq]
    exact ⟨hread, hmade.of_take_eq (htake (hread.trans hcommitted))⟩
  | replicate upTo hcommitted hupTo =>
    refine ⟨h.logged, fun n p hp hstage => ?_⟩
    obtain ⟨hread, hmade⟩ := h.unsent n p hp hstage
    exact ⟨hread.trans hcommitted, hmade⟩
  | apply n happlied => exact h.setNode (h.unsent n)
  | refuse n call => exact h
  | start n call write hpending hprepare =>
    refine h.setNode fun p hp _ => ?_
    cases hp
    simp only [prepare, Run.bind_eq_some] at hprepare
    obtain ⟨snapshot, hread, ⟨answer, after⟩, hrun, text, htext, hwrite⟩ := hprepare
    cases hwrite
    exact ⟨hlog.applied_le n, snapshot, after, Run.ok_of_toOption hread, hrun, Run.ok_of_toOption htext⟩
  | submit n write readAt hpending hleader =>
    have htake : ∀ {length}, length ≤ c.log.length → (c.log ++ [write]).take length = c.log.take length :=
      fun hle => take_append_of_le_length hle
    have hread : readAt = c.log.length := hok.2 hleader _ hpending
    refine ⟨fun position w hget => ?_, fun m p hp hstage => ?_⟩
    · rcases Nat.lt_trichotomy position c.log.length with hlt | heq | hgt
      · rw [List.getElem?_append_left hlt] at hget
        exact (h.logged position w hget).of_take_eq (htake hlt.le)
      · rw [heq, List.getElem?_concat_length] at hget
        cases hget
        have hmade := (h.unsent n _ hpending rfl).2
        rw [heq, ← hread]
        exact hmade.of_take_eq (htake hread.le)
      · rw [List.getElem?_eq_none (by simp; omega)] at hget
        cases hget
    · unfold RaftCluster.setNode at hp
      dsimp only at hp
      split at hp
      · cases hp
        cases hstage
      · obtain ⟨hcommitted, hmade⟩ := h.unsent m p hp hstage
        exact ⟨hcommitted, hmade.of_take_eq (htake (hcommitted.trans hlog.committed_le))⟩
  | reject n p hpending hunsent => exact h.setNode fun _ hp => by cases hp
  | succeed n write readAt position hpending happlied =>
    have hset : HistoryInv codec (c.setNode n { c.nodes n with pending := none }) := h.setNode fun _ hp => by cases hp
    exact ⟨hset.logged, hset.unsent⟩
  | fail n p hpending => exact h.setNode fun _ hp => by cases hp

theorem serial_take (hfresh : c.FreshLog) (h : HistoryInv codec c) (hle : length ≤ c.log.length) :
    ∃ metadata, Serial EphemeralServiceSnapshot.run {} ((c.log.take length).map RaftWrite.operation)
        metadata ∧
      codec.readSnapshotState (c.machine length).status = .ok metadata := by
  induction length with
  | zero => exact ⟨{}, rfl, rfl⟩
  | succ length ih =>
    obtain ⟨before, hserial, hbefore⟩ := ih (by omega)
    have hget := List.getElem?_eq_getElem hle
    have htake : c.log.take (length + 1) = c.log.take length ++ [c.log[length]] := take_succ_eq_append_getElem hle
    obtain ⟨snapshot, after, hsnapshot, hrun, htext⟩ := h.logged length _ hget
    cases hbefore.symm.trans hsnapshot
    refine ⟨after, ?_, ?_⟩
    · rw [htake, map_append]
      exact (serial_snoc _).mpr ⟨before, hserial, hrun⟩
    have haccepts := hfresh length c.log[length].request (by rw [List.getElem?_map, hget]; rfl)
    rw [← map_take] at haccepts
    unfold machine
    rw [htake, map_append]
    have hstatus : (replay ((c.log.take length).map (·.request) ++ [c.log[length].request])).status =
        some c.log[length].request.status := by
      rw [replay_snoc, Machine.status_apply haccepts]
    exact (congrArg codec.readSnapshotState hstatus).trans (SnapshotCodec.readSnapshotState_stored htext)

/-! ### Whose entries the log has -/

def Holds (c : RaftCluster Text) (n : NodeId) (position : Nat) : Prop :=
  ∃ p, (c.nodes n).pending = some p ∧ p.stage = .logged position

/-- Every entry of the log is that of one pending or of one answered write. -/
structure BookInv (c : RaftCluster Text) : Prop where
  cover : ∀ position < c.log.length, position ∈ c.answered.map Prod.fst ∨ ∃ n, c.Holds n position
  nodup : (c.answered.map Prod.fst).Nodup
  apart : ∀ n position, c.Holds n position → position ∉ c.answered.map Prod.fst
  distinct : ∀ n m position, c.Holds n position → c.Holds m position → n = m

theorem holds_setNode : (c.setNode n node).Holds m position ↔
      if m = n then ∃ p, node.pending = some p ∧ p.stage = .logged position else c.Holds m position := by
  unfold Holds setNode
  dsimp only
  split <;> rfl

theorem not_holds (h : ∀ p ∈ (c.nodes n).pending, p.stage = .unsent ∨ p.stage = .lost) : ¬ c.Holds n position := by
  rintro ⟨p, hp, hstage⟩
  rcases h p hp with hunsent | hlost
  · rw [hunsent] at hstage
    cases hstage
  · rw [hlost] at hstage
    cases hstage

theorem BookInv.of_holds_iff (h : BookInv c) (hlog : c'.log = c.log) (hanswered : c'.answered = c.answered)
    (hholds : ∀ n position, c'.Holds n position ↔ c.Holds n position) :
    BookInv c' where
  cover := by
    rw [hlog, hanswered]
    simpa only [hholds] using h.cover
  nodup := hanswered ▸ h.nodup
  apart := by
    rw [hanswered]
    simpa only [hholds] using h.apart
  distinct := by simpa only [hholds] using h.distinct

theorem BookInv.setNode (h : BookInv c) (hold : ∀ p ∈ (c.nodes n).pending, p.stage = .unsent ∨ p.stage = .lost)
    (hnew : ∀ p ∈ node.pending, p.stage = .unsent ∨ p.stage = .lost) : BookInv (c.setNode n node) := by
  refine h.of_holds_iff rfl rfl fun m position => ?_
  have hnone : ¬ (c.setNode n node).Holds n position := not_holds (by simpa [RaftCluster.setNode] using hnew)
  by_cases hm : m = n
  · subst hm
    exact ⟨fun hh => absurd hh hnone, fun hh => absurd hh (not_holds hold)⟩
  · rw [holds_setNode, if_neg hm]

theorem holds_elect :
    ({ c with log := c.log.take kept, leader := some n,
              nodes := fun m => (c.nodes m).truncate kept } : RaftCluster Text).Holds m position ↔
      c.Holds m position ∧ position < kept := by
  constructor
  · rintro ⟨p, hp, hstage⟩
    obtain ⟨q, hq, rfl⟩ := Option.map_eq_some_iff.mp hp
    obtain ⟨hqstage, hlt, -⟩ := PendingWrite.truncate_logged hstage
    exact ⟨⟨q, hq, hqstage⟩, hlt⟩
  rintro ⟨⟨p, hp, hstage⟩, hlt⟩
  have hsame : p.truncate kept = p := by
    unfold PendingWrite.truncate
    rw [hstage]
    exact if_pos hlt
  refine ⟨p, ?_, hstage⟩
  simp [RaftNode.truncate, hp, hsame]

theorem lt_of_holds (hlog : LogInv c) (h : c.Holds n position) : position < c.log.length := by
  obtain ⟨p, hp, hstage⟩ := h
  exact (List.getElem?_eq_some_iff.mp (hlog.logged n p position hp hstage)).1

theorem lt_of_mem_answered (hlog : LogInv c) (h : position ∈ c.answered.map Prod.fst) : position < c.log.length := by
  obtain ⟨a, ha, rfl⟩ := mem_map.mp h
  exact (hlog.answered a ha).1.trans_le hlog.committed_le

theorem bookInv_submit (hlog : LogInv c) (h : BookInv c)
    (hpending : (c.nodes n).pending = some ⟨write, readAt, .unsent⟩) :
    BookInv { c.setNode n { c.nodes n with
      pending := some ⟨write, readAt, .logged c.log.length⟩ } with log := c.log ++ [write] } := by
  have hholds : ∀ m position, ({ c.setNode n { c.nodes n with
      pending := some ⟨write, readAt, .logged c.log.length⟩ } with
        log := c.log ++ [write] } : RaftCluster Text).Holds m position ↔
      c.Holds m position ∨ m = n ∧ position = c.log.length := by
    intro m position
    have hn : ¬ c.Holds n position := not_holds (by simp [hpending])
    refine holds_setNode.trans ?_
    by_cases hm : m = n
    · subst hm
      simp [hn, eq_comm]
    · simp [hm]
  refine ⟨fun position hlt => ?_, h.nodup, fun m position hm => ?_, fun m k position hm hk => ?_⟩
  · simp only [hholds]
    rcases Nat.lt_or_ge position c.log.length with hold | hnew
    · rcases h.cover position hold with ha | ⟨m, hm⟩
      · exact Or.inl ha
      · exact Or.inr ⟨m, Or.inl hm⟩
    · rw [length_append, length_singleton] at hlt
      exact Or.inr ⟨n, Or.inr ⟨rfl, by omega⟩⟩
  · rcases (hholds m position).mp hm with hm' | ⟨-, hpm⟩
    · exact h.apart m position hm'
    · rw [hpm]
      exact fun ha => (lt_of_mem_answered hlog ha).false
  rcases (hholds m position).mp hm with hm' | ⟨hmn, hpm⟩
  · rcases (hholds k position).mp hk with hk' | ⟨-, hpk⟩
    · exact h.distinct m k position hm' hk'
    · rw [hpk] at hm'
      exact absurd (lt_of_holds hlog hm') (lt_irrefl _)
  · rcases (hholds k position).mp hk with hk' | ⟨hkn, -⟩
    · rw [hpm] at hk'
      exact absurd (lt_of_holds hlog hk') (lt_irrefl _)
    · rw [hmn, hkn]

theorem bookInv_succeed (h : BookInv c) (hpending : (c.nodes n).pending = some ⟨write, readAt, .logged position⟩) :
    BookInv { c.setNode n { c.nodes n with pending := none } with
      answered := c.answered ++ [(position, write)] } := by
  have hn : c.Holds n position := ⟨_, hpending, rfl⟩
  have hholds : ∀ m q, ({ c.setNode n { c.nodes n with pending := none } with
      answered := c.answered ++ [(position, write)] } : RaftCluster Text).Holds m q ↔
      c.Holds m q ∧ m ≠ n := by
    intro m q
    refine holds_setNode.trans ?_
    by_cases hm : m = n
    · simp [hm]
    · simp [hm]
  have hmem : ∀ q, q ∈ (c.answered ++ [(position, write)]).map Prod.fst ↔
      q ∈ c.answered.map Prod.fst ∨ q = position := by
    simp
  refine ⟨fun q hq => ?_, ?_, fun m q hm => ?_, fun m k q hm hk => ?_⟩
  · simp only [hholds, hmem]
    rcases h.cover q hq with ha | ⟨m, hm⟩
    · exact Or.inl (Or.inl ha)
    by_cases hmn : m = n
    · subst hmn
      obtain ⟨p, hp, hstage⟩ := hm
      cases hpending.symm.trans hp
      cases hstage
      exact Or.inl (Or.inr rfl)
    · exact Or.inr ⟨m, hm, hmn⟩
  · rw [map_append]
    refine nodup_append.mpr ⟨h.nodup, nodup_singleton _, ?_⟩
    intro q hq r hr heq
    rw [heq, mem_singleton.mp hr] at hq
    exact h.apart n position hn hq
  · obtain ⟨hm', hmn⟩ := (hholds m q).mp hm
    rw [hmem]
    rintro (ha | hq)
    · exact h.apart m q hm' ha
    · rw [hq] at hm'
      exact hmn (h.distinct m n position hm' hn)
  · exact h.distinct m k q ((hholds m q).mp hm).1 ((hholds k q).mp hk).1

theorem bookInv_empty : BookInv ({} : RaftCluster Text) where
  cover := fun _ h => absurd h (Nat.not_lt_zero _)
  nodup := nodup_nil
  apart := fun _ _ _ => not_mem_nil
  distinct := fun _ _ _ h => by
    obtain ⟨p, hp, -⟩ := h
    cases hp

theorem bookInv_step (hlog : LogInv c) (h : BookInv c) (hok : c.serialOk e)
    (heffect : Effect codec c e c') : BookInv c' := by
  cases heffect with
  | elect n kept hcommitted hkept =>
    refine ⟨fun position hlt => ?_, h.nodup, fun m position hm => ?_, fun m k position hm hk => ?_⟩
    · rw [length_take] at hlt
      rcases h.cover position (by omega) with ha | ⟨m, hm⟩
      · exact Or.inl ha
      · exact Or.inr ⟨m, holds_elect.mpr ⟨hm, by omega⟩⟩
    · exact h.apart m position (holds_elect.mp hm).1
    · exact h.distinct m k position (holds_elect.mp hm).1 (holds_elect.mp hk).1
  | replicate upTo hcommitted hupTo => exact h.of_holds_iff rfl rfl fun _ _ => Iff.rfl
  | apply n happlied =>
    refine h.of_holds_iff rfl rfl fun m position => holds_setNode.trans ?_
    split
    · rename_i hm
      rw [hm]
      rfl
    · rfl
  | refuse n call => exact h
  | start n call write hnone hprepare =>
    exact h.setNode (fun p hp => by rw [hnone] at hp; cases hp)
      (fun p hp => Or.inl (by cases hp; rfl))
  | submit n write readAt hpending hleader => exact bookInv_submit hlog h hpending
  | reject n p hpending hunsent =>
    refine h.setNode (fun q hq => ?_) (fun q hq => by cases hq)
    cases hpending.symm.trans hq
    exact Or.inl hunsent
  | succeed n write readAt position hpending happlied => exact bookInv_succeed h hpending
  | fail n p hpending => exact h.setNode hok.2 (fun q hq => by cases hq)

theorem operations_perm (hlog : LogInv c) (h : BookInv c) (hidle : ∀ n position, ¬ c.Holds n position) :
    (c.log.map RaftWrite.operation).Perm (c.answered.map fun a => RaftWrite.operation a.2) := by
  have hpositions : (c.answered.map Prod.fst).Perm (List.range c.log.length) := by
    refine (perm_ext_iff_of_nodup h.nodup nodup_range).mpr fun position => ?_
    rw [mem_range]
    refine ⟨lt_of_mem_answered hlog, fun hlt => ?_⟩
    rcases h.cover position hlt with ha | ⟨n, hn⟩
    · exact ha
    · exact absurd hn (hidle n position)
  have hanswered : (c.answered.map Prod.fst).filterMap (fun i => c.log[i]?) = c.answered.map Prod.snd := by
    rw [filterMap_map, ← filterMap_eq_map]
    exact filterMap_congr fun a ha => (hlog.answered a ha).2
  have hperm := hpositions.filterMap fun i => c.log[i]?
  rw [hanswered, Lists.filterMap_range] at hperm
  have hmap := hperm.symm.map RaftWrite.operation
  rwa [map_map] at hmap

/-- **Runs.** In every run whose leaders write from all of the log, under fresh serials, and whose errors
are those of writes that are not in the log, the metadata is serializable whenever no write is pending. -/
theorem serializable_of_exec {events : List RaftEvent} {c : RaftCluster Text}
    (hok : Run.Along (step codec) serialOk {} events)
    (hrun : Run.exec (step codec) {} events = some c) (hidle : ∀ n, (c.nodes n).pending = none) :
    c.Serializable codec := by
  have hinv : (LogInv c ∧ c.FreshLog) ∧ HistoryInv codec c ∧ BookInv c := by
    refine Run.exec_invariant (P := fun c => (LogInv c ∧ c.FreshLog) ∧ HistoryInv codec c ∧ BookInv c) ?_
      ⟨⟨logInv_empty, fresh_nil⟩, historyInv_empty, bookInv_empty⟩ hok hrun
    intro c e c' h hstepOk hstep
    obtain ⟨⟨hlog, hfresh⟩, hhistory, hbook⟩ := h
    have heffect := effect_of_step hstep
    exact ⟨⟨logInv_step hlog heffect, freshLog_step hfresh hstepOk.1 heffect⟩,
      historyInv_step hlog hhistory hstepOk heffect, bookInv_step hlog hbook hstepOk heffect⟩
  obtain ⟨⟨hlog, hfresh⟩, hhistory, hbook⟩ := hinv
  obtain ⟨metadata, hserial, hread⟩ := serial_take hfresh hhistory (Nat.le_refl c.log.length)
  rw [take_length] at hserial
  refine ⟨_, metadata, operations_perm hlog hbook fun n position hholds => ?_, hserial, hread⟩
  obtain ⟨p, hp, -⟩ := hholds
  rw [hidle n] at hp
  cases hp

/-! ### Writes that cross -/

/-- The write is made from what some of the given writes give one after the other. -/
def MadeFrom (codec : SnapshotCodec Text) (log : List (RaftWrite Text)) (write : RaftWrite Text) : Prop :=
  ∃ order before after, order.Sublist (log.map RaftWrite.operation) ∧
    Serial EphemeralServiceSnapshot.run {} order before ∧ before.run write.call = some (write.answer, after) ∧
    codec.serializeSnapshotState after = .ok write.request.status

theorem MadeFrom.mono {log log' : List (RaftWrite Text)} (h : MadeFrom codec log write) (hsub : log.Sublist log') :
    MadeFrom codec log' write := by
  obtain ⟨order, before, after, horder, hmade⟩ := h
  exact ⟨order, before, after, horder.trans (hsub.map _), hmade⟩

/-- Every entry of the log is made from entries before it, and so is a write that is not yet in the log. -/
structure OriginInv (codec : SnapshotCodec Text) (c : RaftCluster Text) : Prop where
  logged : ∀ front write, front ++ [write] <+: c.log → MadeFrom codec front write
  unsent : ∀ n p, (c.nodes n).pending = some p → p.stage = .unsent →
    MadeFrom codec (c.log.take c.committed) p.write

/-- A node that has applied the first entries of the log reads what some of their operations give one
after the other, in the order of the log and with the answers they got. -/
def ReadsSerially (codec : SnapshotCodec Text) (c : RaftCluster Text) (length : Nat) : Prop :=
  ∃ order metadata, order.Sublist ((c.log.take length).map RaftWrite.operation) ∧
    Serial EphemeralServiceSnapshot.run {} order metadata ∧
    codec.readSnapshotState (c.machine length).status = .ok metadata

theorem OriginInv.readsSerially (h : OriginInv codec c) (length : Nat) : c.ReadsSerially codec length := by
  induction length with
  | zero => exact ⟨[], {}, nil_sublist _, rfl, rfl⟩
  | succ length ih =>
    rcases Nat.lt_or_ge length c.log.length with hlt | hge
    · have htake : c.log.take (length + 1) = c.log.take length ++ [c.log[length]] := take_succ_eq_append_getElem hlt
      obtain ⟨order, before, after, horder, hserial, hrun, htext⟩ :=
        h.logged (c.log.take length) _ (htake ▸ take_prefix _ _)
      unfold ReadsSerially machine at ih ⊢
      rw [htake, map_append, map_append, map_singleton, map_singleton, replay_snoc]
      by_cases haccepts : (replay ((c.log.take length).map (·.request))).accepts c.log[length].request = true
      · rw [Machine.status_apply haccepts]
        exact ⟨_, after, horder.append (Sublist.refl _), (serial_snoc _).mpr ⟨before, hserial, hrun⟩,
          SnapshotCodec.readSnapshotState_stored htext⟩
      · -- A skipped write leaves what was there.
        obtain ⟨order, metadata, horder, hrest⟩ := ih
        rw [Machine.apply, if_neg haccepts]
        exact ⟨order, metadata, horder.trans (sublist_append_left _ _), hrest⟩
    · unfold ReadsSerially machine at ih ⊢
      rw [take_of_length_le (Nat.le_succ_of_le hge)]
      rwa [take_of_length_le hge] at ih

theorem OriginInv.setNode (h : OriginInv codec c) {n : NodeId} {node : RaftNode Text}
    (hunsent : ∀ p, node.pending = some p → p.stage = .unsent → MadeFrom codec (c.log.take c.committed) p.write) :
    OriginInv codec (c.setNode n node) := by
  refine ⟨h.logged, fun m p hp => ?_⟩
  unfold RaftCluster.setNode at hp
  dsimp only at hp
  split at hp
  · exact hunsent p hp
  · exact h.unsent m p hp

theorem originInv_step (hlog : LogInv c) (h : OriginInv codec c) (heffect : Effect codec c e c') :
    OriginInv codec c' := by
  have hnone : ∀ n, OriginInv codec (c.setNode n { c.nodes n with pending := none }) :=
    fun n => h.setNode fun _ hp => by cases hp
  cases heffect with
  | elect n kept hcommitted hkept =>
    refine ⟨fun front w hfront => h.logged front w (hfront.trans ⟨_, take_append_drop _ _⟩), fun m p hp hstage => ?_⟩
    obtain ⟨q, hq, rfl⟩ := Option.map_eq_some_iff.mp hp
    obtain ⟨hunsent, heq⟩ := PendingWrite.truncate_unsent hstage
    dsimp only
    rw [take_take, Nat.min_eq_left hcommitted, heq]
    exact h.unsent m q hq hunsent
  | replicate upTo hcommitted hupTo =>
    exact ⟨h.logged, fun n p hp hstage => (h.unsent n p hp hstage).mono (take_sublist_take_left hcommitted)⟩
  | apply n happlied => exact h.setNode (h.unsent n)
  | refuse n call => exact h
  | start n call write hpending hprepare =>
    refine h.setNode fun p hp _ => ?_
    cases hp
    simp only [prepare, Run.bind_eq_some] at hprepare
    obtain ⟨snapshot, hread, ⟨answer, after⟩, hrun, text, htext, hwrite⟩ := hprepare
    cases hwrite
    obtain ⟨order, metadata, horder, hserial, hmetadata⟩ := h.readsSerially (c.nodes n).applied
    cases hmetadata.symm.trans (Run.ok_of_toOption hread)
    refine MadeFrom.mono ?_ (take_sublist_take_left (hlog.applied_le n))
    exact ⟨order, snapshot, after, horder, hserial, hrun, Run.ok_of_toOption htext⟩
  | submit n write readAt hpending hleader =>
    refine ⟨fun front w hfront => ?_, fun m p hp hstage => ?_⟩
    · rcases prefix_concat_iff.mp hfront with heq | hold
      · obtain ⟨rfl, hw⟩ := append_inj' heq rfl
        cases hw
        exact (h.unsent n _ hpending rfl).mono (take_sublist _ _)
      · exact h.logged front w hold
    · unfold RaftCluster.setNode at hp ⊢
      dsimp only at hp ⊢
      rw [take_append_of_le_length hlog.committed_le]
      split at hp
      · cases hp
        cases hstage
      · exact h.unsent m p hp hstage
  | reject n p hpending hunsent => exact hnone n
  | succeed n write readAt position hpending happlied => exact ⟨(hnone n).logged, (hnone n).unsent⟩
  | fail n p hpending => exact hnone n

/-- **Writes are at most lost.** In every run, whatever leaders are behind and whatever writes are skipped,
a node reads what some of the writes that it has applied give one after the other. -/
theorem readsSerially_of_exec {events : List RaftEvent} {c : RaftCluster Text}
    (hrun : Run.exec (step codec) {} events = some c) (length : Nat) : c.ReadsSerially codec length := by
  have hinv : LogInv c ∧ OriginInv codec c := by
    refine Run.exec_invariant_all (P := fun c => LogInv c ∧ OriginInv codec c) ?_ ⟨logInv_empty, ?_⟩ hrun
    · rintro c e c' ⟨hlog, horigin⟩ hstep
      exact ⟨logInv_step hlog (effect_of_step hstep), originInv_step hlog horigin (effect_of_step hstep)⟩
    · exact ⟨fun _ _ h => by simp at h, fun _ _ h => by cases h⟩
  exact hinv.2.readsSerially length

/-! ### A leader that is behind -/

/-- Node 1 uses up its first serial on a write that is refused, becomes leader after a write of node 0, and
writes before it has applied that write. -/
def staleWrites : List RaftEvent :=
  [.start 1 (aliasCall "t" "x"), .submit 1, .elect 0 0] ++ writeEvents 0 (aliasCall "t" "a") 0 ++
    [.elect 1 1, .start 1 (aliasCall "t" "b"), .submit 1, .replicate 2, .apply 1, .apply 1, .succeed 1]

/-- The table of an alias in the metadata that a state machine keeps. -/
def aliasOf (aliasName : String) (metadata : EphemeralServiceSnapshot) : Option String :=
  metadata.tableAliases.lookup aliasName

theorem staleWrites_answered :
    (Run.exec (step plain) {} staleWrites).map (fun c =>
      (c.answered.map fun a => RaftWrite.operation a.2, (c.machine c.log.length).status.map (aliasOf "a"))) =
      some ([(aliasCall "t" "a", .flag true), (aliasCall "t" "b", .flag true)], some none) := rfl

theorem staleWrites_idle (n : NodeId) :
    (Run.exec (step plain) {} staleWrites).map (fun c => (c.nodes n).pending.isNone) = some true := by
  match n with
  | 0 => rfl
  | 1 => rfl
  | _ + 2 => rfl

/-- Both writes are answered `Ok`; the second undoes the first, which no serial order does. -/
theorem not_serializable_staleWrites : ∃ c,
    Run.exec (step plain) {} staleWrites = some c ∧ (∀ n, (c.nodes n).pending = none) ∧
      ¬ c.Serializable plain := by
  obtain ⟨c, hrun, hanswered⟩ := Option.map_eq_some_iff.mp staleWrites_answered
  obtain ⟨hoperations, halias⟩ := Prod.mk.inj hanswered
  refine ⟨c, hrun, fun n => ?_, ?_⟩
  · have hidle := staleWrites_idle n
    rw [hrun] at hidle
    exact Option.isNone_iff_eq_none.mp (Option.some.inj hidle)
  rintro ⟨order, metadata, hperm, hserial, hread⟩
  rw [hoperations] at hperm
  -- in either order the two operations leave the first alias
  have hkept : aliasOf "a" metadata = some "t" := by
    rcases Lists.eq_or_eq_of_perm_pair hperm with rfl | rfl
    all_goals
      obtain ⟨m, hm, k, hk, rfl⟩ := hserial
      cases hm
      cases hk
      rfl
  cases hstatus : (c.machine c.log.length).status with
  | none =>
    rw [hstatus] at halias
    cases halias
  | some text =>
    rw [hstatus] at halias hread
    cases hread
    rw [Option.map_some, hkept] at halias
    cases halias

theorem serializable_of_exec_laterWrites : ∃ c,
    Run.exec (step plain) {} laterWrites = some c ∧ c.answered.length = 3 ∧
      c.Serializable plain := by
  have hanswered : (Run.exec (step plain) {} laterWrites).map (fun c => c.answered.length) = some 3 := rfl
  obtain ⟨c, hrun, hlength⟩ := Option.map_eq_some_iff.mp hanswered
  have hidle : ∀ n, (Run.exec (step plain) {} laterWrites).map (fun c =>
      (c.nodes n).pending.isNone) = some true := by
    intro n
    match n with
    | 0 => rfl
    | 1 => rfl
    | _ + 2 => rfl
  refine ⟨c, hrun, hlength, serializable_of_exec (by decide +kernel) hrun fun n => ?_⟩
  have hn := hidle n
  rw [hrun] at hn
  exact Option.isNone_iff_eq_none.mp (Option.some.inj hn)

/-- The leader that is behind: the metadata is that of its own write alone. -/
theorem readsSerially_of_exec_staleWrites : ∃ c,
    Run.exec (step plain) {} staleWrites = some c ∧ c.ReadsSerially plain c.log.length := by
  obtain ⟨c, hrun, -⟩ := Option.map_eq_some_iff.mp staleWrites_answered
  exact ⟨c, hrun, readsSerially_of_exec hrun _⟩

end RaftCluster

end PowdrrEngine
