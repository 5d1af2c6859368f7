import PowdrrEngine.DynamoKeys

/-! Concurrent writes of one table. The handlers read the latest checkpoint and publish a new one in
separate steps, without a check in between, so two puts that are each to create an item can both succeed.
Schedules in which every write finds the checkpoint that its request has read do what the successful
requests do one after the other. -/

namespace PowdrrEngine

open ReadModifyWrite List Except

/-- The steps of any number of clients, each known by a number. -/
abbrev WriteEvent := Event Nat WriteCall

abbrev WriteSystem := System Nat DynamoDbTable WriteCall WritePlan (DynamoResult WriteResponse)

/-- No request in progress. -/
def WriteSystem.start (table : DynamoDbTable) : WriteSystem := { store := table }

def WriteRequest.condition : WriteRequest → Option FilterNode
  | .putItem request => request.conditionExpression
  | .updateItem request => request.conditionExpression
  | .deleteItem request => request.conditionExpression
  | .batchWriteItem _ => none

def ConditionHeld (table : DynamoDbTable) (call : WriteCall) : Prop :=
  ∀ key, call.request.itemKey table.keySchema = some key → ∃ rows k, table.loadMutableTableRows = .ok rows ∧
    key = .ok k ∧ conditionMatches (rows.find? (rowMatchesKey table.keySchema k)) call.request.condition = true

variable {rt : DynamoRuntime}

theorem conditionHeld_of_edits {table : DynamoDbTable} {rows : List JsonMap}
    {call : WriteCall} {edited : Option (List JsonMap)} (hrows : table.loadMutableTableRows = .ok rows)
    (h : Edits rt table rows call.request edited) : ConditionHeld table call := by
  obtain ⟨request, checkpointId⟩ := call
  intro key hkey
  cases h with
  | put hitem hk hcondition | update hk hactions hcondition hitem | delete hk hcondition hfound
  | absent hk hcondition hfound =>
    cases hkey
    exact ⟨rows, _, hrows, hk, hcondition⟩
  | batch hoperations hchanged | batchUnchanged hoperations hchanged => cases hkey

theorem conditionHeld_of_succeeded (table : DynamoDbTable) (call : WriteCall)
    (h : succeeded ((writeProtocol rt).perform table call).1 = true) : ConditionHeld table call := by
  obtain ⟨rows, edited, hrows, hedits, -, -⟩ := write_cases h
  exact conditionHeld_of_edits hrows hedits

/-! ### Guarded puts -/

def GuardedPut (keySchema : DynamoDbKeySchemaConfig) (key : JsonMap) (call : WriteCall) : Prop :=
  ∃ request, call.request = .putItem request ∧ parseItemKeyMap request.item keySchema = .ok key ∧
    request.conditionExpression = some (.predicate ⟨.field keySchema.partitionKey, .attributeNotExists⟩)

def PlainKey (keySchema : DynamoDbKeySchemaConfig) (key : JsonMap) : Prop :=
  ∀ name ∈ keySchema.fields, ∃ v t, key.lookup name = some v ∧ v.plainType = some t ∧ v ≠ .null

theorem Value.jsonEq_self_of_plainType {v : Value} {t : PowdrrDataType} (h : v.plainType = some t) :
    v.jsonEq v = true := by
  cases v with
  | null | bool _ | string _ => simp [jsonEq]
  | number n =>
    cases n with
    | posInt n | negInt n => simp [jsonEq, Number.jsonEq]
    | float f =>
      have hself : f.toDyadic.cmp f.toDyadic = .eq := Std.ReflCmp.compare_self
      simp [jsonEq, Number.jsonEq, hself]
  | array _ | object _ => cases h

section

variable {table : DynamoDbTable} {key : JsonMap} {call : WriteCall}

theorem exists_item_of_put (hlaw : rt.Lawful) {request : PutItemRequest} (hput : call.request = .putItem request)
    (hkey : parseItemKeyMap request.item table.keySchema = .ok key) (hplain : PlainKey table.keySchema key)
    (h : succeeded ((writeProtocol rt).perform table call).1 = true) :
    ((writeProtocol rt).perform table call).2.loadMutableTableRows =
        .ok ((writeProtocol rt).perform table call).2.items ∧
      ∃ row ∈ ((writeProtocol rt).perform table call).2.items, rowMatchesKey table.keySchema key row = true := by
  obtain ⟨rows, edited, hrows, hedits, -, hpublish⟩ := write_cases h
  rw [hput] at hedits
  obtain @⟨_, item, k, hitem, hk, -⟩ := hedits
  obtain rfl : key = k := ok.inj (hkey.symm.trans hk)
  obtain ⟨rows', hrows', hpublish⟩ | ⟨hnone, -⟩ := hpublish
  · cases hrows'
    obtain ⟨_, _, _, -, -, -, -, hload, -, -⟩ := publish_items hlaw hpublish
    refine ⟨hload, ?_⟩
    obtain ⟨row, hrow, hkept⟩ := Lists.exists_right_of_forall₂ (publish_keeps hlaw hpublish)
      (mem_append_right _ (mem_singleton_self item))
    refine ⟨row, hrow, rowMatchesKey_iff.mpr fun name hname => ?_⟩
    obtain ⟨v, t, hv, ht, hnull⟩ := hplain name hname
    rw [hkept name v t ((lookup_put hitem hk hname).trans hv) ht hnull, hv]
    exact Value.jsonEq_self_of_plainType ht
  · cases hnone

theorem not_conditionHeld_of_item (hguard : GuardedPut table.keySchema key call)
    (hplain : PlainKey table.keySchema key) (hload : table.loadMutableTableRows = .ok table.items)
    (hitem : ∃ row ∈ table.items, rowMatchesKey table.keySchema key row = true) :
    ¬ ConditionHeld table call := by
  obtain ⟨request, hput, hkey, hcondition⟩ := hguard
  intro hheld
  have hitemKey : call.request.itemKey table.keySchema =
      some (parseItemKeyMap request.item table.keySchema) := by rw [hput]; rfl
  obtain ⟨rows, k, hrows, hk, hmatch⟩ := hheld _ hitemKey
  obtain rfl : rows = table.items := ok.inj (hrows.symm.trans hload)
  obtain rfl : key = k := ok.inj (hkey.symm.trans hk)
  obtain ⟨found, hfound⟩ := Option.isSome_iff_exists.mp (find?_isSome.mpr hitem)
  have hrow := rowMatchesKey_iff.mp (find?_some hfound) table.keySchema.partitionKey mem_cons_self
  obtain ⟨v, t, hv, -, hnull⟩ := hplain table.keySchema.partitionKey mem_cons_self
  have hcond : call.request.condition =
      some (.predicate ⟨.field table.keySchema.partitionKey, .attributeNotExists⟩) := by
    rw [hput]
    exact hcondition
  rw [hcond, hfound] at hmatch
  rw [hv] at hrow
  -- the partition key of the row found is equal to one that is not null, so the attribute exists
  cases hw : found.lookup table.keySchema.partitionKey with
  | none =>
    rw [hw] at hrow
    cases hrow
  | some w =>
    rw [hw] at hrow
    have hvisible : visibleObjectValue found table.keySchema.partitionKey = some w := by
      refine visibleObjectValue_eq_some.mpr ⟨hw, fun hwnull => hnull ?_⟩
      subst hwnull
      exact Value.jsonEq_null_left.mp hrow
    simp [conditionMatches, evaluateFilterNode, evaluateFilterPredicate, FilterOperand.fieldName, hvisible] at hmatch

end

theorem not_guardedPuts_of_serial (hlaw : rt.Lawful) {table final : DynamoDbTable}
    {before after : List (WriteCall × DynamoResult WriteResponse)}
    {first second : WriteCall × DynamoResult WriteResponse}
    (hserial : Serial (writeProtocol rt) table (before ++ first :: second :: after) final)
    (hfirst : succeeded first.2 = true) (hsecond : succeeded second.2 = true) {key : JsonMap}
    (hplain : PlainKey table.keySchema key) :
    ¬ (GuardedPut table.keySchema key first.1 ∧ GuardedPut table.keySchema key second.1) := by
  rintro ⟨⟨request, hput, hkey, -⟩, hguard⟩
  obtain ⟨m, hm, hrest⟩ := hserial.split
  have hschema : table.keySchema = m.keySchema := hm.invariant (I := fun t => table.keySchema = t.keySchema)
    (fun t call ht => ht.trans (keySchema_write rt t call).symm) rfl
  rw [hschema] at hkey hplain hguard
  rw [← hrest.1] at hfirst
  obtain ⟨hload, hitem⟩ := exists_item_of_put hlaw hput hkey hplain hfirst
  have hnext : m.keySchema = ((writeProtocol rt).perform m first.1).2.keySchema := (keySchema_write rt m first.1).symm
  rw [← hrest.2.1] at hsecond
  rw [hnext] at hplain hguard hitem
  exact not_conditionHeld_of_item hguard hplain hload hitem (conditionHeld_of_succeeded _ _ hsecond)

/-- **Serializability of undisturbed writes.** In every schedule in which a write that takes effect finds
no other write since its request has read the table, the table at the end is that of the successful
requests done one after the other, and the condition of each holds in the table it is done in. Of two puts
of one key that follow each other, each guarded by the absence of the item, only one succeeds. -/
theorem writes_serializable (hlaw : rt.Lawful) {table : DynamoDbTable} {events : List WriteEvent} {sys : WriteSystem}
    (hok : Run.Along (step (writeProtocol rt)) (Undisturbed (writeProtocol rt) succeeded)
      (WriteSystem.start table) events)
    (hrun : Run.exec (step (writeProtocol rt)) (WriteSystem.start table) events = some sys) :
    Serial (writeProtocol rt) table (sys.successes succeeded) sys.store ∧
      AlongSerial (writeProtocol rt) ConditionHeld table (sys.successes succeeded) ∧
      ∀ key before first second after, PlainKey table.keySchema key →
        sys.successes succeeded = before ++ first :: second :: after →
        ¬ (GuardedPut table.keySchema key first.1 ∧ GuardedPut table.keySchema key second.1) := by
  have hpublish : ∀ t plan answer, (writeProtocol rt).publish t plan = (answer, none) → succeeded answer = false := by
    intro t plan answer h
    rcases publish_cases rt t plan with ⟨table', -, hout⟩ | ⟨failure, hout⟩
    · rw [hout] at h
      cases h
    · rw [hout] at h
      cases h
      rfl
  have hserial := serial_of_exec hpublish hok hrun
  have hall : ∀ entry ∈ sys.successes succeeded, succeeded entry.2 = true :=
    fun entry hentry => (mem_filter.mp hentry).2
  refine ⟨hserial, hserial.along conditionHeld_of_succeeded hall, fun key before first second after hplain hsplit => ?_⟩
  rw [hsplit] at hserial
  exact not_guardedPuts_of_serial hlaw hserial
    (hall first (by rw [hsplit]; simp)) (hall second (by rw [hsplit]; simp)) hplain

/-! ### Two puts of one key -/

/-- A table of items `pk`, a string, and `n`, a number, without items so far. -/
def counterTable : DynamoDbTable where
  config := ⟨"pk", none, [], []⟩
  checkpoint :=
    { tableName := "counters"
      checkpointId := "0"
      icebergMetadata := some
        { tableSchema := ⟨[⟨"n", .integer⟩, ⟨"pk", .string⟩]⟩
          snapshotId := none
          files := .new }
      schema := ⟨[⟨"n", .integer⟩, ⟨"pk", .string⟩]⟩ }
  files := ∅

/-- A put of the counter `a`, on the condition that there is none. -/
def createCounter (n checkpointId : String) : WriteCall where
  request := .putItem
    { item := Dict.insertAll ∅ [("pk", .object [("S", .string "a")]), ("n", .object [("N", .string n)])]
      conditionExpression := some (.predicate ⟨.field "pk", .attributeNotExists⟩) }
  checkpointId := checkpointId

def deleteCounter (name checkpointId : String) : WriteCall where
  request := .deleteItem { key := Dict.single "pk" (.object [("S", .string name)]) }
  checkpointId := checkpointId

/-- Requests of three clients that overlap. While the first put is under way, a delete of an absent counter is
answered; while the delete of the new counter is under way, another put is to create it again and is refused. -/
def counterSchedule : List WriteEvent :=
  [.load 0 (createCounter "1" "1"), .load 1 (deleteCounter "b" "2"), .publish 0, .load 1 (deleteCounter "a" "3"),
    .load 2 (createCounter "2" "4"), .publish 1]

theorem writes_serializable_counter : ∃ sys : WriteSystem,
    Run.exec (step (writeProtocol .plain)) (WriteSystem.start counterTable) counterSchedule = some sys ∧
      Serial (writeProtocol .plain) counterTable (sys.successes succeeded) sys.store ∧
      sys.answered.map (fun entry => (entry.1.checkpointId, succeeded entry.2)) =
        [("2", true), ("1", true), ("4", false), ("3", true)] := by
  refine Run.exists_end (p := fun sys => sys.answered.map (fun entry => (entry.1.checkpointId, succeeded entry.2)) =
    [("2", true), ("1", true), ("4", false), ("3", true)]) (by decide +kernel) fun sys hsys hanswers => ⟨?_, hanswers⟩
  exact (writes_serializable DynamoRuntime.lawful_plain (by decide +kernel) hsys).1

/-- **A lost update.** Two puts of the counter `a`, each to create it, both read the empty table before
one of them publishes. Both succeed and the table keeps the second item; done one after the other, in
either order, one of them is refused. -/
theorem concurrentPuts_both_succeed : ∃ sys : WriteSystem,
    Run.exec (step (writeProtocol .plain)) (WriteSystem.start counterTable)
        [.load 0 (createCounter "1" "1"), .load 1 (createCounter "2" "2"), .publish 0, .publish 1] = some sys ∧
      sys.answered.map (fun entry => (entry.1.checkpointId, entry.2)) =
        [("1", .ok (.attributes none)), ("2", .ok (.attributes none))] ∧
      sys.store.items.map (fun item => item.lookup "n") = [some (.int 2)] ∧
      ∀ order, order.Perm [(createCounter "1" "1", .ok (.attributes none)),
          (createCounter "2" "2", .ok (.attributes none))] →
        ∀ final, ¬ Serial (writeProtocol .plain) counterTable order final := by
  obtain ⟨sys, hsys, hanswered, hitems⟩ : ∃ sys, Run.exec (step (writeProtocol .plain)) (WriteSystem.start counterTable)
      [.load 0 (createCounter "1" "1"), .load 1 (createCounter "2" "2"), .publish 0, .publish 1] = some sys ∧
        sys.answered.map (fun entry => (entry.1.checkpointId, entry.2)) =
          [("1", .ok (.attributes none)), ("2", .ok (.attributes none))] ∧
        sys.store.items.map (fun item => item.lookup "n") = [some (.int 2)] := by decide +kernel
  refine ⟨sys, hsys, hanswered, hitems, fun order horder final hserial => ?_⟩
  rcases Lists.eq_or_eq_of_perm_pair horder with rfl | rfl
  · exact absurd hserial.2.1 (by decide +kernel)
  · exact absurd hserial.2.1 (by decide +kernel)

end PowdrrEngine
