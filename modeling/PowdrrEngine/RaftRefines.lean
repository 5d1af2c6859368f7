import PowdrrEngine.LibReplicatedLog
import PowdrrEngine.RaftSnapshot
import PowdrrEngine.ServiceFrames

/-! The Raft-backed service under one stable leader, against the plain service. The leader's log is never
cut and a write is applied before it is answered, so the service is a state machine and a counter. A call
of the write path is answered by a service restored from the stored snapshot, and the service it leaves
is stored; a call of the read path leaves nothing. The two services answer alike as long as what the
plain one keeps survives a snapshot and its reads change nothing. -/

namespace PowdrrEngine

open ReplicatedLog List EphemeralServiceImpl SnapshotCodec Dict

/-- `RaftServiceImpl` of the leader. -/
structure RaftServiceImpl (Text : Type) where
  mode : CompactionMode
  ids : IdInstance
  drawn : Nat := 0
  writeSerial : Nat := 0
  store : Machine Text := {}

namespace RaftServiceImpl

variable {Text : Type} (codec : SnapshotCodec Text)

def new (mode : CompactionMode) (ids : IdInstance) : RaftServiceImpl Text := { mode, ids }

variable (r : RaftServiceImpl Text)

/-- The service that the next call works on. -/
def restore : Except String EphemeralServiceImpl :=
  (codec.readSnapshotState r.store.status).map (EphemeralServiceImpl.fromSnapshot r.mode r.ids r.drawn)

/-- `write_snapshot_state`, with the write committed and applied. -/
def writeSnapshotState (snapshot : EphemeralServiceSnapshot) : Except String (RaftServiceImpl Text) :=
  (codec.serializeSnapshotState snapshot).map fun text =>
    let serial := r.writeSerial + 1
    { r with writeSerial := serial, store := r.store.apply ⟨serial, text⟩ }

/-- A call, through `raft_read_state!` or `raft_write_state!`. -/
def answer (c : TimedCall) : Option (Except String ServiceAnswer × RaftServiceImpl Text) :=
  match r.restore codec with
  | .error e => some (.error e, r)
  | .ok state => (state.answer c.now c.call).map fun (result, state) =>
    let r := { r with drawn := state.drawn }
    if c.call.isWrite then
      match r.writeSnapshotState codec state.snapshotState with
      | .error e => (.error e, r)
      | .ok r => (.ok result, r)
    else (.ok result, r)

end RaftServiceImpl

/-- A class with a name of its own. -/
def ArtifactClass.isCustom : ArtifactClass → Bool
  | .custom _ => true
  | _ => false

namespace EphemeralServiceImpl

variable {call : ServiceCall} {result : ServiceAnswer} {now : Int}

/-! ### What survives a snapshot -/

/-- A service that is restored from its snapshot as it is: no frontier is kept under an empty extension,
which the snapshot takes for none, there is a group of extension work, without which the snapshot gets an
empty one, and no artifact class has a name of its own, which is no key of a JSON object. -/
structure Restorable (s : EphemeralServiceImpl) : Prop where
  extensions : s.latestCommittedCheckpointId.lookup (some "") = none
  work : s.extensionWorkItems.entries ≠ []
  classes : ∀ key acks name, s.artifactReadinessAcks.lookup key = some acks → acks.lookup (.custom name) = none

variable {s s' : EphemeralServiceImpl}

theorem restorable_new (mode : CompactionMode) (ids : IdInstance) : (new mode ids).Restorable :=
  ⟨rfl, cons_ne_nil _ _, fun key acks name h => by cases h⟩

theorem deserialize_serialize {checkpoints : Dict (Option String) (Dict String String)}
    (h : checkpoints.lookup (some "") = none) :
    deserializeLatestCommittedCheckpointId (serializeLatestCommittedCheckpointId checkpoints) = checkpoints := by
  have hkey : ∀ e ∈ checkpoints.entries, extensionFromStorageKey (extensionStorageKey e.1) = e.1 := by
    rintro ⟨extension, v⟩ hmem
    refine extensionFromStorageKey_storageKey fun heq => ?_
    subst heq
    rw [lookup_eq_some_iff.mpr hmem] at h
    cases h
  have hnodup : ((checkpoints.entries.map fun e => (extensionStorageKey e.1, e.2)).map Prod.fst).Nodup := by
    rw [map_map]
    have hkeys : (checkpoints.entries.map Sigma.fst).Nodup := checkpoints.keys_nodup
    refine List.Nodup.of_map extensionFromStorageKey ?_
    rw [map_map]
    have heq : checkpoints.entries.map (extensionFromStorageKey ∘ (Prod.fst ∘ fun e =>
        (extensionStorageKey e.1, e.2))) = checkpoints.entries.map Sigma.fst :=
      map_congr_left hkey
    rwa [heq]
  have hserialized := entries_insertAll hnodup
  -- The first pass turns the entries round, the second turns them back.
  have hpairs : (serializeLatestCommittedCheckpointId checkpoints).entries.map
      (fun e => (extensionFromStorageKey e.1, e.2)) = (checkpoints.entries.map fun e => (e.1, e.2)).reverse := by
    rw [serializeLatestCommittedCheckpointId, hserialized, map_reverse, map_map, map_map]
    congr 1
    refine map_congr_left fun e he => ?_
    simp [hkey e he]
  have hnodup' : ((checkpoints.entries.map fun e => (e.1, e.2)).reverse.map Prod.fst).Nodup := by
    rw [map_reverse, nodup_reverse, map_map]
    exact checkpoints.keys_nodup
  apply AList.ext
  rw [deserializeLatestCommittedCheckpointId, hpairs, entries_insertAll hnodup', map_reverse, reverse_reverse, map_map]
  exact map_id _

theorem lookup_deserialize_blank (checkpoints : Dict String (Dict String String)) :
    (deserializeLatestCommittedCheckpointId checkpoints).lookup (some "") = none := by
  refine (lookup_insertAll_append (l := []) fun hmem => ?_).trans (AList.lookup_empty _)
  obtain ⟨pair, hpair, hkey⟩ := mem_map.mp hmem
  obtain ⟨e, -, rfl⟩ := mem_map.mp hpair
  unfold extensionFromStorageKey at hkey
  split at hkey
  · cases hkey
  · rename_i hne
    exact hne (Option.some.inj hkey)

/-- A service with a group of extension work comes back from its snapshot exactly if no frontier is kept
under an empty extension. -/
theorem fromSnapshot_snapshotState (hwork : s.extensionWorkItems.entries ≠ []) :
    fromSnapshot s.mode s.ids s.drawn s.snapshotState = s ↔ s.latestCommittedCheckpointId.lookup (some "") = none := by
  constructor
  · intro h
    rw [← h]
    exact lookup_deserialize_blank _
  · intro h
    unfold fromSnapshot snapshotState
    dsimp only
    rw [deserialize_serialize h, if_neg (by simpa using hwork)]

theorem work_ne_nil_of_step {c : TimedCall} (hwork : s.extensionWorkItems.entries ≠ [])
    (hstep : s.step c = some s') : s'.extensionWorkItems.entries ≠ [] := by
  by_cases hcall : c.call.isCoordination = true
  · rcases step_cutoverFrame hcall hstep with ⟨touched, hframe⟩ | ⟨ack, -, rfl⟩ | ⟨ack, -, rfl⟩
    · rw [hframe.work]
      exact hwork
    · exact hwork
    · exact hwork
  · exact (step_commitFrame (Bool.eq_false_iff.mpr hcall) hstep).work hwork

/-- **The round trip of a snapshot.** -/
theorem snapshot_roundTrip_iff_of_exec (mode : CompactionMode) (ids : IdInstance) (calls : List TimedCall)
    (hrun : Run.exec step (new mode ids) calls = some s) :
    fromSnapshot s.mode s.ids s.drawn s.snapshotState = s ↔ s.latestCommittedCheckpointId.lookup (some "") = none := by
  refine fromSnapshot_snapshotState (Run.exec_invariant_all (P := fun s => s.extensionWorkItems.entries ≠ [])
    (fun _ _ _ => work_ne_nil_of_step) ?_ hrun)
  exact cons_ne_nil _ _

/-- A checkpoint that is covered for one extension. -/
def coveredFor (extension : String) : List TimedCall :=
  [⟨0, .addCheckpoint
    { tableName := "t", checkpointId := "c", schema := .minimal, extensionMetadata := Dict.single extension ∅ }⟩]

theorem snapshot_roundTrip_iff_of_exec_es : ∃ s, Run.exec step (new .disabled .counting) (coveredFor "es") = some s ∧
    fromSnapshot s.mode s.ids s.drawn s.snapshotState = s := by
  exact Run.exists_end (p := fun s => s.latestCommittedCheckpointId.lookup (some "") = none) (by decide +kernel)
    fun s hs hblank => (snapshot_roundTrip_iff_of_exec _ _ _ hs).mpr hblank

/-- The frontier of an extension without a name comes back as one of no extension. -/
theorem snapshot_blank_extension : ∃ s, Run.exec step (new .disabled .counting) (coveredFor "") = some s ∧
    fromSnapshot s.mode s.ids s.drawn s.snapshotState ≠ s := by
  refine Run.exists_end (p := fun s => s.extensionWorkItems.entries.length ≠ 0 ∧
    s.latestCommittedCheckpointId.lookup (some "") ≠ none) (by decide +kernel) ?_
  rintro s - ⟨hwork, hblank⟩ h
  exact hblank ((fromSnapshot_snapshotState fun hnil => hwork (by rw [hnil]; rfl)).mp h)

theorem Restorable.of_commitFrame {touched : List (Option String)} (h : s.Restorable)
    (hframe : CommitFrame touched s s') (hblank : some "" ∉ touched) : s'.Restorable where
  extensions := (hframe.frontiers _ hblank).trans h.extensions
  work := hframe.work h.work
  classes := fun key acks name hacks => by
    have hsame : s'.artifactReadinessAcks = s.artifactReadinessAcks :=
      congrArg Coordination.artifactReadinessAcks hframe.coordination
    exact h.classes key acks name (hsame ▸ hacks)

theorem Restorable.of_cutoverFrame {touched : String → Option String → Prop} (h : s.Restorable)
    (hframe : CutoverFrame touched s s') : s'.Restorable where
  extensions := by
    rw [hframe.frontiers]
    exact h.extensions
  work := by
    rw [hframe.work]
    exact h.work
  classes := fun key acks name hacks => h.classes key acks name (hframe.readiness key acks hacks)

theorem Restorable.recordArtifactReadiness (h : s.Restorable) {ack : ArtifactReadinessAck}
    (hack : ∀ name, ack.artifactClass ≠ .custom name) : (s.recordArtifactReadiness ack).Restorable := by
  refine ⟨h.extensions, h.work, fun key acks name hacks => ?_⟩
  simp only [EphemeralServiceImpl.recordArtifactReadiness, lookup_insert_eq] at hacks
  split at hacks
  · cases hacks
    rw [AList.lookup_insert_ne (hack name).symm]
    unfold Dict.getD
    cases hold : s.artifactReadinessAcks.lookup
        (selectorGroupKey ack.selector.tableName ack.selector.extension) with
    | none => rfl
    | some old => exact h.classes _ old name hold
  · exact h.classes key acks name hacks

/-! ### The condition on a call -/

/-- There is nothing for `get_checkpoint_cutover_state` to capture or to backfill: the table has no
committed checkpoint, or the view is for the latest one and has nodes, unless no node has a lease. -/
def viewSettled (s : EphemeralServiceImpl) (tableName : String) (extension : Option String) : Bool :=
  (s.getLatestMaterializedCheckpointSync tableName extension).all fun target =>
    (s.getCutoverMembershipView tableName extension).any fun view => view.targetCheckpointId = target &&
      (!view.requiredNodeIds.isEmpty || s.servingNodeLeases.entries.isEmpty)

/-- A call that both services treat alike in a state. -/
def replicable (s : EphemeralServiceImpl) : ServiceCall → Bool
  | .getCheckpointCutoverState tableName extension => s.viewSettled tableName extension
  | .recordArtifactReadiness ack => !ack.artifactClass.isCustom
  | .addCheckpoint metadata => "" ∉ metadata.extensionMetadata.keys
  | _ => true

theorem captureForCutoverState_eq_self (now : Int) {tableName : String} {extension : Option String}
    (h : s.viewSettled tableName extension = true) :
    s.captureForCutoverState now tableName extension = s := by
  unfold captureForCutoverState
  cases htarget : s.getLatestMaterializedCheckpointSync tableName extension with
  | none => rfl
  | some target =>
    rw [viewSettled, htarget, Option.all_some, Option.any_eq_true] at h
    obtain ⟨view, hview, hsettled⟩ := h
    simp only [Bool.and_eq_true, Bool.or_eq_true, decide_eq_true_eq, Bool.not_eq_true',
      List.isEmpty_eq_false_iff, List.isEmpty_iff] at hsettled
    obtain ⟨hfor, hnodes⟩ := hsettled
    have hcapture : s.captureCutoverMembershipForTarget now tableName extension target = s := by
      rw [captureCutoverMembershipForTarget, hview, if_pos (by simp [hfor])]
    dsimp only
    rw [hcapture]
    unfold backfillCutoverMembershipForTarget
    rw [hview]
    dsimp only
    rcases hnodes with hnodes | hleases
    · rw [if_pos (Or.inr hnodes)]
    · have hlive : s.liveServingNodeIds = [] := by
        simp [liveServingNodeIds, AList.keys, hleases]
      have hkept : s.servingNodeLeases.retain
          (fun _ lease => decide (now - leaseLengthMs ≤ lease.observedAtMs)) = s.servingNodeLeases :=
        AList.ext (by simp [Dict.retain, hleases])
      rw [pruneExpiredServingNodeLeases, hkept, hlive]
      split <;> rfl

theorem answer_read (hread : call.isWrite = false) (hok : s.replicable call = true)
    (h : s.answer now call = some (result, s')) : s' = s := by
  cases call with
  | getCheckpointCutoverState tableName extension =>
    have hleft : s.captureForCutoverState now tableName extension = s' := congrArg Prod.snd (Option.some.inj h)
    rw [← hleft, captureForCutoverState_eq_self now hok]
  | getAllIcebergTables | describeTable | describeTableTemplate | describePipeline
  | describeLifetimePolicy | getLatestCommittedCheckpoint | getLatestTargetCheckpoint
  | getPublishedActiveCheckpoint | getPublishedCheckpointRecord | getCheckpoint
  | listServingNodeActivations | listArtifactReadiness =>
    cases h
    rfl
  | _ => cases hread

theorem blank_notMem_frontiers (hok : s.replicable call = true) : some "" ∉ call.frontiers := by
  cases call with
  | addCheckpoint metadata =>
    intro hmem
    obtain ⟨extension, hkey, heq⟩ := mem_map.mp ((mem_cons.mp hmem).resolve_left nofun)
    cases heq
    exact of_decide_eq_true hok hkey
  | speedboatCommit commit | icebergCommit tableName commit =>
    exact fun hmem => nomatch mem_singleton.mp hmem
  | extensionCommit tableName commit =>
    intro hmem
    have heq := mem_singleton.mp hmem
    simp at heq
  | _ => exact not_mem_nil

/-- **A step keeps the service restorable**, and in its process. -/
theorem Restorable.answer (h : s.Restorable) (hok : s.replicable call = true)
    (hstep : s.answer now call = some (result, s')) :
    s'.Restorable ∧ s'.mode = s.mode ∧ s'.ids = s.ids := by
  have hs' : s.step ⟨now, call⟩ = some s' := congrArg (Option.map _) hstep
  by_cases hcall : call.isCoordination = true
  · rcases step_cutoverFrame hcall hs' with ⟨touched, hframe⟩ | ⟨ack, rfl, rfl⟩ | ⟨ack, rfl, rfl⟩
    · exact ⟨h.of_cutoverFrame hframe, hframe.mode, hframe.ids⟩
    · exact ⟨⟨h.extensions, h.work, h.classes⟩, rfl, rfl⟩
    · refine ⟨h.recordArtifactReadiness fun name heq => ?_, rfl, rfl⟩
      have hplain : (!ack.artifactClass.isCustom) = true := hok
      rw [heq] at hplain
      cases hplain
  · have hframe := step_commitFrame (Bool.eq_false_iff.mpr hcall) hs'
    exact ⟨h.of_commitFrame hframe (blank_notMem_frontiers hok), hframe.mode, hframe.ids⟩

end EphemeralServiceImpl

/-! ### The refinement -/

/-- What is assumed of `serde_json`: a snapshot is written unless the map of an acknowledgement has a
class with a name of its own as its key. -/
def SnapshotCodec.WritesPlainKeys {Text : Type} (codec : SnapshotCodec Text) : Prop :=
  ∀ snapshot : EphemeralServiceSnapshot, (∀ key acks name, snapshot.artifactReadinessAcks.lookup key = some acks →
      acks.lookup (.custom name) = none) → ∃ text, codec.toText snapshot = .ok text

theorem SnapshotCodec.plain_writesPlainKeys : SnapshotCodec.plain.WritesPlainKeys :=
  fun snapshot _ => ⟨snapshot, rfl⟩

namespace RaftServiceImpl

variable {Text : Type} {codec : SnapshotCodec Text}

/-- The Raft-backed service stands for a plain one: it is the one restored from the snapshot, and the
next serial is a new one. -/
structure StandsFor (codec : SnapshotCodec Text) (r : RaftServiceImpl Text) (s : EphemeralServiceImpl) : Prop where
  restore : r.restore codec = .ok s
  restorable : s.Restorable
  serial : ∀ serial ∈ r.store.last, serial ≤ r.writeSerial

variable {r : RaftServiceImpl Text} {s s' : EphemeralServiceImpl}

theorem StandsFor.process (h : StandsFor codec r s) : s.mode = r.mode ∧ s.ids = r.ids ∧ s.drawn = r.drawn := by
  obtain ⟨snapshot, -, rfl⟩ := Run.map_eq_ok.mp h.restore
  exact ⟨rfl, rfl, rfl⟩

theorem StandsFor.write (hcodec : codec.WritesPlainKeys) (hs : s.Restorable)
    (hmode : s.mode = r.mode) (hids : s.ids = r.ids) (hdrawn : s.drawn = r.drawn)
    (hserial : ∀ serial ∈ r.store.last, serial ≤ r.writeSerial) :
    ∃ r', r.writeSnapshotState codec s.snapshotState = .ok r' ∧ StandsFor codec r' s := by
  obtain ⟨text, htext⟩ := hcodec s.snapshotState hs.classes
  have hwritten := serializeSnapshotState_eq_ok.mpr htext
  have haccepts : r.store.accepts ⟨r.writeSerial + 1, text⟩ = true := by
    refine decide_eq_true fun hlast => ?_
    have hle := hserial (r.writeSerial + 1) hlast
    omega
  unfold writeSnapshotState
  rw [hwritten]
  refine ⟨_, rfl, ?_, hs, ?_⟩
  · unfold RaftServiceImpl.restore
    dsimp only
    rw [Machine.status_apply haccepts, readSnapshotState_stored hwritten, ← hmode, ← hids, ← hdrawn]
    exact congrArg Except.ok ((fromSnapshot_snapshotState hs.work).mpr hs.extensions)
  · intro serial hmem
    dsimp only at hmem ⊢
    rw [Machine.last_apply] at hmem
    exact (Nat.le_of_eq (Option.mem_some_iff.mp hmem).symm)

/-- **The step of the simulation.** -/
theorem StandsFor.answer (hcodec : codec.WritesPlainKeys) (h : StandsFor codec r s) (c : TimedCall)
    (hok : s.replicable c.call = true) :
    Run.AnswerAlike Except.ok (StandsFor codec) (r.answer codec c) (s.answer c.now c.call) := by
  obtain ⟨hmode, hids, hdrawn⟩ := h.process
  unfold RaftServiceImpl.answer
  rw [h.restore]
  dsimp only
  cases hanswer : s.answer c.now c.call with
  | none => trivial
  | some p =>
    obtain ⟨result, s'⟩ := p
    obtain ⟨hs', hmode', hids'⟩ := h.restorable.answer hok hanswer
    dsimp only [Option.map_some]
    cases hwrite : c.call.isWrite with
    | true =>
      obtain ⟨r', hr', hstands⟩ := StandsFor.write (r := { r with drawn := s'.drawn }) hcodec hs'
        (hmode'.trans hmode) (hids'.trans hids) rfl h.serial
      rw [if_pos rfl, hr']
      exact ⟨rfl, hstands⟩
    | false =>
      obtain rfl := answer_read hwrite hok hanswer
      rw [if_neg Bool.false_ne_true, hdrawn]
      exact ⟨rfl, h⟩

/-- **The Raft-backed service refines the plain one.** Along calls that are replicable in the state they
meet, it gives the same answers, none of them an error, and a service restored from it is in the same
state; and it stops exactly where the plain one stops. -/
theorem trace_eq_of_replicable (hcodec : codec.WritesPlainKeys) (mode : CompactionMode) (ids : IdInstance)
    (calls : List TimedCall)
    (hok : Run.Along EphemeralServiceImpl.step (fun s c => s.replicable c.call = true) (.new mode ids) calls) :
    (Run.trace (answer codec) (.new mode ids) calls).map
        (fun (answers, r) => (answers, r.restore codec)) =
      (Run.trace (fun s c => EphemeralServiceImpl.answer s c.now c.call) (.new mode ids) calls).map
        fun (answers, s) => (answers.map Except.ok, Except.ok s) := by
  have hnew : StandsFor codec (.new mode ids) (.new mode ids) := ⟨rfl, restorable_new mode ids, nofun⟩
  have halike := Run.trace_alike (fun r s c h hc => StandsFor.answer hcodec h c hc) hnew hok
  exact halike.map_eq fun r s hstands => hstands.restore

/-- A cutover of one table to its first checkpoint with one serving node. The given call comes after the
node's heartbeat, and before the node asks for the cutover state. -/
def cutoverCalls (call : ServiceCall) : List TimedCall :=
  [⟨0, .addCheckpoint { tableName := "t", checkpointId := "c", schema := .minimal }⟩,
    ⟨0, .heartbeatServingNode ⟨"n", 0, 0⟩⟩,
    ⟨0, call⟩,
    ⟨0, .getCheckpointCutoverState "t" none⟩,
    ⟨0, .recordArtifactReadiness ⟨.forTarget "t" none, "c", 1, .snapshotLookupMmap, "n", 0⟩⟩,
    ⟨0, .recordArtifactReadiness ⟨.forTarget "t" none, "c", 1, .snapshotExactLookupMmap, "n", 0⟩⟩,
    ⟨0, .recordServingNodeActivation ⟨.forTarget "t" none, "n", 1, "c", 0⟩⟩,
    ⟨0, .updateAllCheckpoints⟩,
    ⟨0, .getPublishedActiveCheckpoint "t" none⟩]

def lastCheckpointId (answers : List (Except String ServiceAnswer)) : Option String :=
  match answers.getLast? with
  | some (.ok (.checkpointId id)) => id
  | _ => none

/-- With an update before it, the request for the cutover state finds a settled view. -/
theorem trace_eq_of_replicable_update :
    Run.Along EphemeralServiceImpl.step (fun s c => s.replicable c.call = true) (.new .disabled .counting)
        (cutoverCalls .updateAllCheckpoints) ∧
      (Run.trace (answer .plain) (.new .disabled .counting) (cutoverCalls .updateAllCheckpoints)).map
          (fun (answers, r) => (answers, r.restore .plain)) =
        (Run.trace (fun s c => EphemeralServiceImpl.answer s c.now c.call) (.new .disabled .counting)
          (cutoverCalls .updateAllCheckpoints)).map
            fun (answers, s) => (answers.map Except.ok, Except.ok s) := by
  have hok : Run.Along EphemeralServiceImpl.step (fun s c => s.replicable c.call = true)
      (.new .disabled .counting) (cutoverCalls .updateAllCheckpoints) := by decide +kernel
  exact ⟨hok, trace_eq_of_replicable plain_writesPlainKeys _ _ _ hok⟩

/-- Without one, the plain service captures the view when the node asks and promotes the checkpoint; the
Raft-backed one drops that view, captures it with the update, which clears the acknowledgements, and
promotes nothing. -/
theorem not_trace_eq_unsettled :
    (Run.trace (answer .plain) (.new .disabled .counting) (cutoverCalls (.describeTable "t"))).map
        Prod.fst ≠
      (Run.trace (fun s c => EphemeralServiceImpl.answer s c.now c.call) (.new .disabled .counting)
        (cutoverCalls (.describeTable "t"))).map fun (answers, _) => answers.map Except.ok := by
  intro heq
  have hraft : ((Run.trace (answer .plain) (.new .disabled .counting)
      (cutoverCalls (.describeTable "t"))).map Prod.fst).map lastCheckpointId = some none := by
    decide +kernel
  have hplain : ((Run.trace (fun s c => EphemeralServiceImpl.answer s c.now c.call)
      (.new .disabled .counting) (cutoverCalls (.describeTable "t"))).map
        fun (answers, _) => answers.map Except.ok).map lastCheckpointId = some (some "c") := by
    decide +kernel
  rw [heq, hplain] at hraft
  cases hraft

end RaftServiceImpl

end PowdrrEngine
