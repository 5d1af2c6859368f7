import Mathlib.Data.List.Sort
import Mathlib.Data.String.Basic
import PowdrrEngine.ServiceState

/-! Leases, activation acks and membership views in the service over DynamoDB. Each is kept as two items, an
entry of an index and a named body. Storing one deletes the body and then creates both items in a transaction,
which is cancelled where the entry is still there; acks are found by the start of their names. -/

namespace PowdrrEngine

open List AList

namespace DynamoDBServiceImpl

inductive EntityType where
  | servingNodeLease | servingNodeActivation | cutoverMembershipView
  deriving DecidableEq

structure EntityKey where
  typeName : EntityType
  name : String
  deriving DecidableEq

inductive StoredEntity where
  | lease (lease : ServingNodeLease)
  | activation (ack : ServingNodeActivationAck)
  | view (view : CutoverMembershipView)
  deriving DecidableEq

/-- The items: entries of the index and bodies, both under the type and the name of the entity. -/
structure EntityTable where
  index : List EntityKey := []
  bodies : Dict EntityKey StoredEntity := ∅

namespace EntityTable

variable (t : EntityTable) (key : EntityKey)

/-- `private_create`: a transaction, and whether it was committed. -/
def create (entity : StoredEntity) : Bool × EntityTable :=
  if key ∈ t.index ∨ key ∈ t.bodies then (false, t)
  else (true, ⟨t.index ++ [key], t.bodies.insert key entity⟩)

/-- `private_delete` names the body only. -/
def delete : EntityTable := { t with bodies := t.bodies.erase key }

def describe : Option StoredEntity := t.bodies.lookup key

/-- The names of a type, in the order of the range key. -/
def fetchEntities (type : EntityType) : List String :=
  ((t.index.filter (·.typeName = type)).map (·.name)).insertionSort (· ≤ ·)

end EntityTable

/-- The operation of a call that fails other than by a cancelled transaction; the call is answered with it. -/
inductive StoreFault where
  | delete | create
  deriving DecidableEq

structure StoreCall where
  key : EntityKey
  entity : StoredEntity
  fault : Option StoreFault := none

variable (t : EntityTable)

/-- What a call leaves; whether the transaction was committed is not looked at. -/
def StoreCall.run (c : StoreCall) : EntityTable :=
  match c.fault with
  | some .delete => t
  | some .create => t.delete c.key
  | none => ((t.delete c.key).create c.key c.entity).2

def leaseKey (nodeId : String) : EntityKey := ⟨.servingNodeLease, "serving-node#" ++ nodeId⟩

variable (tableName : String)

def activationKeyPrefix : Option String → String
  | some extension => "checkpoint_activation#" ++ tableName ++ "#" ++ extension ++ "#"
  | none => "checkpoint_activation#" ++ tableName ++ "#"

variable (extension : Option String)

def activationKey (nodeId : String) : EntityKey :=
  ⟨.servingNodeActivation, activationKeyPrefix tableName extension ++ nodeId⟩

def membershipViewKey : Option String → EntityKey
  | some extension => ⟨.cutoverMembershipView, "published_checkpoint#members#" ++ tableName ++ "#" ++ extension⟩
  | none => ⟨.cutoverMembershipView, "published_checkpoint#members#" ++ tableName⟩

def heartbeatServingNode (lease : ServingNodeLease) (fault : Option StoreFault := none) : StoreCall :=
  ⟨leaseKey lease.nodeId, .lease lease, fault⟩

def recordServingNodeActivation (ack : ServingNodeActivationAck) (fault : Option StoreFault := none) : StoreCall :=
  ⟨activationKey ack.selector.tableName ack.selector.extension ack.nodeId, .activation ack, fault⟩

def storeCutoverMembershipView (epoch : CutoverEpoch)
    (targetCheckpointId : String) (requiredNodeIds : List String) (fault : Option StoreFault := none) : StoreCall :=
  ⟨membershipViewKey tableName extension,
    .view ⟨.forTarget tableName extension, epoch, targetCheckpointId, requiredNodeIds⟩, fault⟩

/-- The items after some calls on an empty table. -/
def stored (calls : List StoreCall) : EntityTable := calls.foldl StoreCall.run {}

variable (key : EntityKey)

/-- The entity of the last call for a key that was answered `Ok`. -/
def acknowledged (calls : List StoreCall) : Option StoredEntity :=
  (calls.filter fun c => c.key = key ∧ c.fault = none).getLast?.map (·.entity)

/-! ### Storing again -/

section

variable {calls : List StoreCall} {c : StoreCall} {t : EntityTable} {key : EntityKey}

theorem stored_append_singleton : stored (calls ++ [c]) = c.run (stored calls) := foldl_concat ..

/-- Once the body is deleted, the entry of the index decides whether the transaction is committed. -/
theorem create_delete (entity : StoredEntity) : ((t.delete key).create key entity).2 =
    if key ∈ t.index then t.delete key
    else ⟨t.index ++ [key], (t.delete key).bodies.insert key entity⟩ := by
  have hbody : key ∉ (t.delete key).bodies := by
    rw [← lookup_isSome, EntityTable.delete, lookup_erase]
    exact Bool.false_ne_true
  rw [EntityTable.create, if_congr (or_iff_left hbody) rfl rfl]
  exact apply_ite Prod.snd ..

theorem describe_delete : (t.delete key).describe key = none := lookup_erase ..

theorem describe_run_self (c : StoreCall) (t : EntityTable) : (c.run t).describe c.key =
    match c.fault with
    | some .delete => t.describe c.key
    | some .create => none
    | none => if c.key ∈ t.index then none else some c.entity := by
  unfold StoreCall.run
  split
  · rfl
  · exact describe_delete
  · rw [create_delete]
    split
    · exact describe_delete
    · exact lookup_insert ..

theorem describe_run_of_ne (h : c.key ≠ key) : (c.run t).describe key = t.describe key := by
  have hdelete : (t.delete c.key).describe key = t.describe key := lookup_erase_ne h.symm
  unfold StoreCall.run
  split
  · rfl
  · exact hdelete
  · rw [create_delete]
    split
    · exact hdelete
    · exact (lookup_insert_ne h.symm).trans hdelete

theorem index_run (c : StoreCall) (t : EntityTable) :
    (c.run t).index = if c.fault = none ∧ c.key ∉ t.index then t.index ++ [c.key] else t.index := by
  unfold StoreCall.run
  split
  · rename_i hfault
    rw [if_neg (by rw [hfault]; nofun)]
  · rename_i hfault
    rw [if_neg (by rw [hfault]; nofun)]
    rfl
  rename_i hfault
  rw [create_delete]
  by_cases hmem : c.key ∈ t.index
  · rw [if_pos hmem, if_neg (not_and_of_not_right _ (not_not.mpr hmem))]
    rfl
  · rw [if_neg hmem, if_pos ⟨hfault, hmem⟩]

theorem mem_index_stored : key ∈ (stored calls).index ↔ ∃ c ∈ calls, c.key = key ∧ c.fault = none := by
  induction calls using List.reverseRecOn with
  | nil => simp [stored]
  | append_singleton calls c ih =>
    rw [stored_append_singleton, index_run]
    by_cases hkey : c.key = key
    · subst hkey
      by_cases hfault : c.fault = none <;> by_cases hmem : c.key ∈ (stored calls).index <;>
        simp [hfault, hmem, ih.symm, or_and_right, exists_or]
    · split <;> simp [ih, hkey, Ne.symm hkey, or_and_right, exists_or]

theorem acknowledged_append_singleton : acknowledged key (calls ++ [c]) =
    if c.key = key ∧ c.fault = none then some c.entity else acknowledged key calls := by
  rw [acknowledged, filter_append, filter_singleton]
  by_cases h : c.key = key ∧ c.fault = none
  · rw [if_pos h, decide_eq_true h, cond_true, List.getLast?_concat]
    rfl
  · rw [if_neg h, decide_eq_false h, cond_false, append_nil]
    rfl

theorem acknowledged_eq_none : acknowledged key calls = none ↔ key ∉ (stored calls).index := by
  rw [mem_index_stored, acknowledged, Option.map_eq_none_iff, List.getLast?_eq_none_iff, filter_eq_nil_iff]
  simp

/-- After a call for the key that was answered `Ok`, every later one for it fails before it deletes. -/
def StoredOnce (key : EntityKey) (calls : List StoreCall) : Prop :=
  calls.Pairwise fun c later => c.key = key → c.fault = none → later.key = key → later.fault = some .delete

theorem storedOnce_append_singleton : StoredOnce key (calls ++ [c]) ↔
    StoredOnce key calls ∧ (c.key = key → key ∈ (stored calls).index → c.fault = some .delete) := by
  rw [StoredOnce, pairwise_append, mem_index_stored]
  simp only [pairwise_singleton, true_and, mem_singleton, forall_eq, StoredOnce]
  exact and_congr_right fun _ =>
    ⟨fun h hkey ⟨first, hmem, hfirst, hfault⟩ => h first hmem hfirst hfault hkey,
      fun h first hmem hfirst hfault hkey => h hkey ⟨first, hmem, hfirst, hfault⟩⟩

theorem storedOnce_of_notMem (h : key ∉ (stored calls).index) : StoredOnce key calls := by
  refine pairwise_of_forall_mem_list fun first hfirst later _ hkey hfault _ => ?_
  exact absurd (mem_index_stored.mpr ⟨first, hfirst, hkey, hfault⟩) h

end

def startsWith (start name : String) : Bool := start.toList.isPrefixOf name.toList

/-- The acks that are found for a selector, by node. -/
def matchingAcks (tableName : String) (extension : Option String) : Dict String ServingNodeActivationAck :=
  ((t.fetchEntities .servingNodeActivation).filter (startsWith (activationKeyPrefix tableName extension))).foldl
    (fun acks name =>
      match t.describe ⟨.servingNodeActivation, name⟩ with
      | some (.activation ack) => acks.insert ack.nodeId ack
      | _ => acks) ∅

/-- Whether the target of a selector is activated, given the membership view that backfilling and reconfiguring
leave and the nodes with a live lease. -/
def activationMatchesTarget (view : Option CutoverMembershipView) (liveNodeIds : List String)
    (tableName : String) (extension : Option String) (targetCheckpointId : String) : Bool :=
  match view with
  | none => false
  | some view =>
    if view.targetCheckpointId ≠ targetCheckpointId then false
    else
      let requiredNodeIds := if view.requiredNodeIds.isEmpty then liveNodeIds else view.requiredNodeIds
      !requiredNodeIds.isEmpty && requiredNodeIds.all fun nodeId =>
        ((matchingAcks t tableName extension).lookup nodeId).any fun ack =>
          ack.checkpointId = targetCheckpointId && ack.epoch = view.epoch

def recorded (acks : List ServingNodeActivationAck) : EntityTable :=
  stored (acks.map fun ack => recordServingNodeActivation ack)

def isFor (ack : ServingNodeActivationAck) (tableName : String) (extension : Option String) :
    Bool := ack.selector.tableName = tableName && ack.selector.extension = extension

/-- **Frame.** On the keys that pass a test, only the calls for such keys matter. -/
theorem stored_filter (p : EntityKey → Bool) (calls : List StoreCall) :
    (stored calls).index.filter p = (stored (calls.filter fun c => p c.key)).index.filter p ∧
      ∀ key, p key = true → (stored calls).describe key = (stored (calls.filter fun c => p c.key)).describe key := by
  induction calls using List.reverseRecOn with
  | nil => exact ⟨rfl, fun _ _ => rfl⟩
  | append_singleton calls c ih =>
    obtain ⟨hindex, hdescribe⟩ := ih
    rw [filter_append, filter_singleton, stored_append_singleton]
    cases hp : p c.key with
    | false =>
      rw [cond_false, append_nil, index_run]
      refine ⟨?_, fun key hkey => ?_⟩
      · split
        · rw [filter_append, filter_singleton, hp, cond_false, append_nil, hindex]
        · exact hindex
      · rw [describe_run_of_ne (fun h => by rw [h, hkey] at hp; cases hp), hdescribe key hkey]
    | true =>
      rw [cond_true, stored_append_singleton]
      have hmem : c.key ∈ (stored calls).index ↔ c.key ∈ (stored (calls.filter fun c => p c.key)).index := by
        have hiff : ∀ l : List EntityKey, c.key ∈ l ↔ c.key ∈ l.filter p := fun l => by
          rw [mem_filter, and_iff_left hp]
        rw [hiff, hindex, ← hiff]
      refine ⟨?_, fun key hkey => ?_⟩
      · rw [index_run, index_run, ← if_congr (and_congr_right fun _ => not_congr hmem) rfl rfl]
        split
        · rw [filter_append, hindex, filter_append]
        · exact hindex
      · by_cases hck : c.key = key
        · subst hck
          rw [describe_run_self, describe_run_self, hdescribe _ hp, if_congr hmem rfl rfl]
        · rw [describe_run_of_ne hck, describe_run_of_ne hck, hdescribe key hkey]

theorem filter_insertionSort {q : String → Bool} {l l' : List String} (h : l.filter q = l'.filter q) :
    (l.insertionSort (· ≤ ·)).filter q = (l'.insertionSort (· ≤ ·)).filter q := by
  have hperm : ((l.insertionSort (· ≤ ·)).filter q).Perm ((l'.insertionSort (· ≤ ·)).filter q) :=
    ((perm_insertionSort _ l).filter q).trans (h ▸ ((perm_insertionSort _ l').filter q).symm)
  exact hperm.eq_of_pairwise' ((pairwise_insertionSort _ l).filter q) ((pairwise_insertionSort _ l').filter q)

/-- The keys under which the acks of a selector are looked for. -/
def foundFor : Bool :=
  key.typeName = .servingNodeActivation && startsWith (activationKeyPrefix tableName extension) key.name

section

variable {tableName : String} {extension : Option String}

theorem matchingAcks_congr {t t' : EntityTable}
    (hindex : t.index.filter (foundFor tableName extension) = t'.index.filter (foundFor tableName extension))
    (hdescribe : ∀ key, foundFor tableName extension key = true → t.describe key = t'.describe key) :
    matchingAcks t tableName extension = matchingAcks t' tableName extension := by
  have hfilter : ∀ t : EntityTable, ((t.index.filter (·.typeName = .servingNodeActivation)).map (·.name)).filter
      (startsWith (activationKeyPrefix tableName extension)) =
        (t.index.filter (foundFor tableName extension)).map (·.name) := by
    intro t
    rw [filter_map, filter_filter]
    exact congrArg _ (filter_congr fun key _ => Bool.and_comm _ _)
  have hnames := filter_insertionSort ((hfilter t).trans ((congrArg _ hindex).trans (hfilter t').symm))
  unfold matchingAcks EntityTable.fetchEntities
  rw [hnames]
  refine foldl_ext _ _ _ fun found name hname => ?_
  rw [hdescribe ⟨.servingNodeActivation, name⟩ (mem_filter.mp hname).2]

theorem matchingAcks_recorded_filter {keep : ServingNodeActivationAck → Bool} {acks : List ServingNodeActivationAck}
    (h : ∀ ack ∈ acks, keep ack = false → foundFor tableName extension (recordServingNodeActivation ack).key = false) :
    matchingAcks (recorded acks) tableName extension = matchingAcks (recorded (acks.filter keep)) tableName extension := by
  have hcalls : (acks.map fun ack => recordServingNodeActivation ack).filter (fun c => foundFor tableName extension c.key) =
      ((acks.filter keep).map fun ack => recordServingNodeActivation ack).filter
        fun c => foundFor tableName extension c.key := by
    rw [filter_map, filter_map, filter_filter]
    refine congrArg _ (filter_congr fun ack hack => ?_)
    cases hkeep : keep ack with
    | true => exact (Bool.and_true _).symm
    | false => exact (h ack hack hkeep).trans (Bool.and_false _).symm
  obtain ⟨hindex, hdescribe⟩ := stored_filter (foundFor tableName extension)
    (acks.map fun ack => recordServingNodeActivation ack)
  obtain ⟨hindex', hdescribe'⟩ := stored_filter (foundFor tableName extension)
    ((acks.filter keep).map fun ack => recordServingNodeActivation ack)
  rw [← hcalls] at hindex' hdescribe'
  exact matchingAcks_congr (hindex.trans hindex'.symm) fun key hkey =>
    (hdescribe key hkey).trans (hdescribe' key hkey).symm

end

end DynamoDBServiceImpl

end PowdrrEngine
