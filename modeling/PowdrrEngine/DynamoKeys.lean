import PowdrrEngine.DynamoRows
import PowdrrEngine.DynamoWrite

/-! The keys of items and of requests. The item that a put or an update writes has the key of the
request, value by value, and the row that a key addresses is one that shows its values. -/

namespace PowdrrEngine

open List Run AList DynamoResult Option Except Dict

variable {v : Value}

/-! ### Equality of values -/

/-- A string or a 64-bit integer, the values of key columns that have one representation. -/
def Value.isKeyValue : Value → Bool
  | .string _ => true
  | .number (.posInt n) => n < 2 ^ 63
  | .number (.negInt n) => n < 2 ^ 63
  | _ => false

theorem Value.plainType_of_isKeyValue (h : v.isKeyValue = true) : v ≠ .null ∧ ∃ t, v.plainType = some t := by
  cases v with
  | null | bool _ | array _ | object _ => cases h
  | string _ => exact ⟨by simp, .string, rfl⟩
  | number n =>
    refine ⟨by simp, .integer, ?_⟩
    cases n with
    | posInt n => exact if_pos (of_decide_eq_true h)
    | negInt n => exact if_pos (of_decide_eq_true h)
    | float f => cases h

theorem Value.jsonEq_null_left : Value.jsonEq .null v = true ↔ v = .null := by
  cases v <;> simp [jsonEq]

theorem Value.jsonEq_iff_of_isKeyValue {a b : Value} (hb : b.isKeyValue = true) : a.jsonEq b = true ↔ a = b := by
  cases b with
  | null | bool _ | array _ | object _ => cases hb
  | string _ => cases a <;> simp [jsonEq]
  | number b =>
    cases a with
    | number a => cases a <;> cases b <;> first | cases hb | simp [jsonEq, Number.jsonEq]
    | null | bool _ | string _ | array _ | object _ => simp [jsonEq]

theorem optionJsonEq_iff {a : Option Value} {b : Value} (hb : b.isKeyValue = true) :
    optionJsonEq a (some b) = true ↔ a = some b := by
  cases a with
  | none => simp [optionJsonEq]
  | some a => simp [optionJsonEq, Value.jsonEq_iff_of_isKeyValue hb]

theorem rowMatchesKey_iff {keySchema : DynamoDbKeySchemaConfig} {key row : JsonMap} :
    rowMatchesKey keySchema key row = true ↔
      ∀ name ∈ keySchema.fields, optionJsonEq (row.lookup name) (key.lookup name) = true :=
  all_eq_true

/-! ### Keys of requests -/

theorem parseKeyField_eq_ok {key : JsonMap} {fieldName kind : String} (h : parseKeyField key fieldName kind = .ok v) :
    ∃ attr, key.lookup fieldName = some attr ∧ dynamodbAttrToJson attr = .ok v := by
  obtain ⟨attr, hattr, h⟩ := exists_ok_of_bind h
  exact ⟨attr, ofOption_eq_ok.mp hattr, h⟩

section

variable {keySchema : DynamoDbKeySchemaConfig} {key : JsonMap} {name fieldName field : String} {schema : PowdrrSchema}
  {actions : List UpdateAction} {item object object' : JsonMap} {action : UpdateAction} {seen : List String}

theorem lookup_parseKeyMap {attributes : JsonMap} (h : parseKeyMap attributes keySchema = .ok key)
    (hfield : fieldName ∈ keySchema.fields) :
    ∃ attr v, attributes.lookup fieldName = some attr ∧ dynamodbAttrToJson attr = .ok v ∧
      key.lookup fieldName = some v := by
  obtain ⟨v, hv, h⟩ := exists_ok_of_bind h
  obtain ⟨attr, hattr, hconv⟩ := parseKeyField_eq_ok hv
  obtain ⟨parsed, hparsed, h⟩ := exists_ok_of_bind h
  have hkey : key = parsed := by
    split at h
    · cases h
    · exact (ok.inj h).symm
  subst hkey
  cases hsort : keySchema.sortKey with
  | none =>
    rw [hsort, parseSortKey] at hparsed
    cases hparsed
    simp only [DynamoDbKeySchemaConfig.fields, hsort, toList_none, mem_singleton] at hfield
    subst hfield
    exact ⟨attr, v, hattr, hconv, Dict.lookup_single _ _⟩
  | some sortKey =>
    rw [hsort, parseSortKey] at hparsed
    obtain ⟨w, hw, rfl⟩ := map_eq_ok.mp hparsed
    obtain ⟨attr', hattr', hconv'⟩ := parseKeyField_eq_ok hw
    simp only [DynamoDbKeySchemaConfig.fields, hsort, toList_some, mem_cons, not_mem_nil, or_false] at hfield
    by_cases heq : fieldName = sortKey
    · subst heq
      exact ⟨attr', w, hattr', hconv', by simp⟩
    · have hpartition : fieldName = keySchema.partitionKey := hfield.resolve_right heq
      subst hpartition
      exact ⟨attr, v, hattr, hconv, by rw [lookup_insert_ne heq, Dict.lookup_single]⟩

theorem copyKeyAttr_eq_ok {target copied : JsonMap} (h : copyKeyAttr item target fieldName = .ok copied) :
    ∃ attr, item.lookup fieldName = some attr ∧ copied = target.insert fieldName attr := by
  obtain ⟨attr, hattr, h⟩ := exists_ok_of_bind h
  exact ⟨attr, ofOption_eq_ok.mp hattr, (ok.inj h).symm⟩

theorem lookup_parseItemKeyMap (h : parseItemKeyMap item keySchema = .ok key) (hfield : fieldName ∈ keySchema.fields) :
    ∃ attr v, item.lookup fieldName = some attr ∧ dynamodbAttrToJson attr = .ok v ∧ key.lookup fieldName = some v := by
  obtain ⟨first, hfirst, h⟩ := exists_ok_of_bind h
  obtain ⟨copied, hcopied, h⟩ := exists_ok_of_bind h
  obtain ⟨attr, v, hattr, hv, hkey⟩ := lookup_parseKeyMap h hfield
  refine ⟨attr, v, ?_, hv, hkey⟩
  obtain ⟨attr₁, hattr₁, rfl⟩ := copyKeyAttr_eq_ok hfirst
  rw [← hattr]
  cases hsort : keySchema.sortKey with
  | none =>
    rw [hsort, copySortKey] at hcopied
    cases hcopied
    simp only [DynamoDbKeySchemaConfig.fields, hsort, toList_none, mem_singleton] at hfield
    subst hfield
    rw [lookup_insert, hattr₁]
  | some sortKey =>
    rw [hsort, copySortKey] at hcopied
    obtain ⟨attr₂, hattr₂, rfl⟩ := copyKeyAttr_eq_ok hcopied
    simp only [DynamoDbKeySchemaConfig.fields, hsort, toList_some, mem_cons, not_mem_nil, or_false] at hfield
    by_cases heq : fieldName = sortKey
    · subst heq
      rw [lookup_insert, hattr₂]
    · have hpartition : fieldName = keySchema.partitionKey := hfield.resolve_right heq
      subst hpartition
      rw [lookup_insert_ne heq, lookup_insert, hattr₁]

theorem convertAttributes_eq_ok {pairs converted : List (String × Value)}
    (h : convertAttributes pairs = .ok converted) :
    converted.map Prod.fst = pairs.map Prod.fst ∧
      ∀ name attr, (name, attr) ∈ pairs → ∃ v, dynamodbAttrToJson attr = .ok v ∧ (name, v) ∈ converted := by
  induction pairs generalizing converted with
  | nil =>
    cases h
    exact ⟨rfl, fun _ _ hmem => absurd hmem not_mem_nil⟩
  | cons pair pairs ih =>
    obtain ⟨v, hv, h⟩ := exists_ok_of_bind h
    obtain ⟨rest, hrest, h⟩ := exists_ok_of_bind h
    cases h
    obtain ⟨hkeys, hmem⟩ := ih hrest
    refine ⟨by rw [map_cons, map_cons, hkeys], fun name attr hpair => ?_⟩
    rcases mem_cons.mp hpair with rfl | hpair
    · exact ⟨v, hv, mem_cons_self⟩
    · obtain ⟨w, hw, hin⟩ := hmem name attr hpair
      exact ⟨w, hw, mem_cons_of_mem _ hin⟩

theorem lookup_dynamodbItemToJsonRow {row : JsonMap} (h : dynamodbItemToJsonRow item = .ok row) {attr : Value}
    (hattr : item.lookup name = some attr) :
    ∃ v, dynamodbAttrToJson attr = .ok v ∧ row.lookup name = some v := by
  obtain ⟨converted, hconverted, rfl⟩ := map_eq_ok.mp h
  obtain ⟨hkeys, hmem⟩ := convertAttributes_eq_ok hconverted
  have hpair : (name, attr) ∈ JsonMap.toPairs item := mem_map.mpr ⟨⟨name, attr⟩, lookup_eq_some_iff.mp hattr, rfl⟩
  have hnodup : (converted.map Prod.fst).Nodup := by
    have hitem : (JsonMap.toPairs item).map Prod.fst = item.keys := by
      simp [JsonMap.toPairs, AList.keys, List.keys, Function.comp_def]
    rw [hkeys, hitem]
    exact item.nodupKeys
  obtain ⟨v, hv, hin⟩ := hmem name attr hpair
  exact ⟨v, hv, (lookup_insertAll_empty hnodup name).trans (lookup_eq_some_of_mem hnodup hin)⟩

theorem lookup_put {row : JsonMap} (hrow : dynamodbItemToJsonRow item = .ok row)
    (hkey : parseItemKeyMap item keySchema = .ok key) (hfield : name ∈ keySchema.fields) :
    row.lookup name = key.lookup name := by
  obtain ⟨attr, v, hattr, hv, hlookup⟩ := lookup_parseItemKeyMap hkey hfield
  obtain ⟨w, hw, hin⟩ := lookup_dynamodbItemToJsonRow hrow hattr
  obtain rfl : v = w := ok.inj (hv.symm.trans hw)
  rw [hin, hlookup]

/-! ### Keys under updates -/

theorem validateUpdateFieldName_eq_ok (h : validateUpdateFieldName fieldName schema keySchema = .ok field) :
    field = fieldName ∧ fieldName ∉ keySchema.fields := by
  unfold validateUpdateFieldName at h
  split at h
  · cases h
  split at h
  · cases h
  split at h
  · cases h
  split at h
  · cases h
  · exact ⟨(ok.inj h).symm, by assumption⟩

theorem checkUpdateAction_eq_ok
    (h : checkUpdateAction schema keySchema action = .ok ()) : action.field ∉ keySchema.fields := by
  cases action with
  | set field value | add field value | delete field value =>
    obtain ⟨_, hfield, -⟩ := exists_ok_of_bind h
    exact (validateUpdateFieldName_eq_ok hfield).2
  | remove field =>
    cases hfield : validateUpdateFieldName field schema keySchema with
    | error failure =>
      rw [checkUpdateAction, hfield] at h
      cases h
    | ok _ => exact (validateUpdateFieldName_eq_ok hfield).2

theorem checkUpdateActions_eq_ok (h : checkUpdateActions schema keySchema seen actions = .ok ()) :
    ∀ action ∈ actions, action.field ∉ keySchema.fields := by
  induction actions generalizing seen with
  | nil => intro action hmem; cases hmem
  | cons first actions ih =>
    obtain ⟨_, hfirst, h⟩ := exists_ok_of_bind h
    split at h
    · cases h
    · intro action hmem
      rcases mem_cons.mp hmem with rfl | hmem
      · exact checkUpdateAction_eq_ok hfirst
      · exact ih h action hmem

theorem lookup_applyUpdateAction (h : applyUpdateAction object action = .ok object') (hname : name ≠ action.field) :
    object'.lookup name = object.lookup name := by
  cases action with
  | set field value =>
    cases h
    exact lookup_insert_ne hname
  | remove field =>
    cases h
    exact lookup_erase_ne hname
  | add field value =>
    simp only [applyUpdateAction, applyAddAction] at h
    split at h
    · cases h
      exact lookup_insert_ne hname
    · split at h
      all_goals
        obtain ⟨value, -, rfl⟩ := map_eq_ok.mp h
        exact lookup_insert_ne hname
  | delete field value =>
    simp only [applyUpdateAction, applyDeleteAction] at h
    split at h
    · rw [ok.inj h]
    rename_i existing hexisting
    obtain ⟨remaining, -, rfl⟩ := map_eq_ok.mp h
    cases remaining with
    | none => exact lookup_erase_ne hname
    | some value => exact lookup_insert_ne hname

theorem lookup_applyUpdateActions (h : actions.foldlM applyUpdateAction object = .ok object')
    (hname : ∀ action ∈ actions, name ≠ action.field) : object'.lookup name = object.lookup name :=
  foldlM_invariant_ok (P := fun o => o.lookup name = object.lookup name)
    (fun action haction _ _ ho hnext => (lookup_applyUpdateAction hnext (hname action haction)).trans ho) rfl h

theorem lookup_insertKey (h : insertKey object keySchema key = .ok object')
    (hfield : name ∈ keySchema.fields) : object'.lookup name = key.lookup name := by
  obtain ⟨v, hv, h⟩ := exists_ok_of_bind h
  rw [ofOption_eq_ok] at hv
  split at h
  · rename_i hsort
    cases h
    simp only [DynamoDbKeySchemaConfig.fields, hsort, toList_none, mem_singleton] at hfield
    subst hfield
    rw [lookup_insert, hv]
  rename_i sortKey hsort
  obtain ⟨w, hw, h⟩ := exists_ok_of_bind h
  rw [ofOption_eq_ok] at hw
  cases h
  simp only [DynamoDbKeySchemaConfig.fields, hsort, toList_some, mem_cons, not_mem_nil, or_false] at hfield
  by_cases heq : name = sortKey
  · subst heq
    rw [lookup_insert, hw]
  · have hpartition : name = keySchema.partitionKey := hfield.resolve_right heq
    subst hpartition
    rw [lookup_insert_ne heq, lookup_insert, hv]

end

theorem keySchema_write (rt : DynamoRuntime) (table : DynamoDbTable) (call : WriteCall) :
    (table.write rt call).2.keySchema = table.keySchema := by
  refine write_invariant (P := fun table' => table'.keySchema = table.keySchema) rfl ?_
  intro rows rows' table' _ _ hpublish
  obtain ⟨_, _, _, _, _, _, -, -, -, -, rfl⟩ := publish_eq_ok hpublish
  rfl

end PowdrrEngine
