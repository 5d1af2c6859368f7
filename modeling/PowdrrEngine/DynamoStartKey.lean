import PowdrrEngine.DynamoKeys
import PowdrrEngine.DynamoQuery

/-! Continuation keys. A page ends with the key of its last row as attribute values; the next request
parses the key and tightens the filter on the sort key. -/

namespace PowdrrEngine

open List Run DynamoResult Except AList Nat

variable {keySchema tableKeySchema : DynamoDbKeySchemaConfig} {candidate : Value} {name : String}
  {filter : ReadPredicate} {key parsed : JsonMap}

/-! ### Parsing a start key -/

theorem lookup_parseStartKeyFields {fieldNames : List String} {parsed' : JsonMap}
    (h : fieldNames.foldlM (parseStartKeyField key) parsed = .ok parsed') :
    (∀ name ∈ fieldNames, ∃ attr v, key.lookup name = some attr ∧ dynamodbAttrToJson attr = .ok v ∧
      parsed'.lookup name = some v) ∧
    ∀ name ∉ fieldNames, parsed'.lookup name = parsed.lookup name := by
  induction fieldNames generalizing parsed with
  | nil =>
    obtain rfl : parsed = parsed' := ok.inj h
    simp
  | cons fieldName fieldNames ih =>
    obtain ⟨next, hnext, h⟩ := exists_ok_of_bind h
    obtain ⟨attr, hattr, hnext⟩ := exists_ok_of_bind hnext
    obtain ⟨v, hv, hnext⟩ := exists_ok_of_bind hnext
    cases hnext
    obtain ⟨hin, hout⟩ := ih h
    constructor
    · intro name hname
      by_cases hmem : name ∈ fieldNames
      · exact hin name hmem
      · obtain rfl : name = fieldName := (mem_cons.mp hname).resolve_right hmem
        exact ⟨attr, v, ofOption_eq_ok.mp hattr, hv, by rw [hout name hmem, lookup_insert]⟩
    · intro name hname
      obtain ⟨hne, hmem⟩ := not_or.mp (mem_cons.not.mp hname)
      rw [hout name hmem, lookup_insert_ne hne]

theorem lookup_parseExclusiveStartKeyMap (h : parseExclusiveStartKeyMap key keySchema tableKeySchema = .ok parsed)
    (hname : name ∈ orderedKeyFields keySchema tableKeySchema) :
    ∃ attr v, key.lookup name = some attr ∧ dynamodbAttrToJson attr = .ok v ∧ parsed.lookup name = some v := by
  obtain ⟨parsed', hparsed, h⟩ := exists_ok_of_bind h
  obtain rfl : parsed' = parsed := by
    split at h
    · cases h
    · exact ok.inj h
  exact (lookup_parseStartKeyFields hparsed).1 name hname

theorem mem_orderedKeyFields (h : name ∈ keySchema.fields) : name ∈ orderedKeyFields keySchema tableKeySchema := by
  rw [DynamoDbKeySchemaConfig.fields] at h
  simp only [orderedKeyFields, labelledKeyFields, map_append, map_cons, map_map, mem_append]
  refine Or.inl (Or.inl ?_)
  simpa [Function.comp_def] using h

theorem mem_orderedKeyFields_table
    (h : name ∈ tableKeySchema.fields) : name ∈ orderedKeyFields keySchema tableKeySchema := by
  rcases mem_cons.mp h with rfl | h
  · by_cases heq : tableKeySchema.partitionKey = keySchema.partitionKey
    · rw [heq]
      exact mem_orderedKeyFields (by simp [DynamoDbKeySchemaConfig.fields])
    · simp [orderedKeyFields, labelledKeyFields, heq]
  by_cases heq : keySchema.sortKey = tableKeySchema.sortKey
  · exact mem_orderedKeyFields (by simpa [DynamoDbKeySchemaConfig.fields, heq] using Or.inr h)
  · have hsome : tableKeySchema.sortKey = some name := by simpa using h
    rw [hsome] at heq
    simp [orderedKeyFields, labelledKeyFields, hsome, heq]

/-! ### Keys of rows -/

variable (floatText : F64 → String)

def ReadsBack (value : Value) : Prop :=
  ∃ attr, jsonToDynamodbAttr floatText value = .ok attr ∧ dynamodbAttrToJson attr = .ok value

theorem parseDigits_toDigits (n : Nat) : parseDigits (Nat.toDigits 10 n) = some n := by
  have hne : Nat.toDigits 10 n ≠ [] := by
    rw [toDigits_eq_if (by decide)]
    split <;> simp
  have hall : (Nat.toDigits 10 n).all Char.isDigit = true :=
    all_eq_true.mpr fun c hc => isDigit_of_mem_toDigits (by decide) (by decide) hc
  rw [parseDigits, if_pos ⟨hne, hall⟩]
  exact congrArg some (ofDigitChars_toDigits (by decide) (by decide))

theorem splitSign_toDigits (n : Nat) : splitSign (Nat.toDigits 10 n) = (false, Nat.toDigits 10 n) := by
  have hdigit : ∀ c ∈ Nat.toDigits 10 n, c.isDigit = true := fun c hc =>
    isDigit_of_mem_toDigits (by decide) (by decide) hc
  unfold splitSign
  split
  · rename_i h
    have := hdigit '-' (by rw [h]; exact mem_cons_self)
    exact absurd this (by decide)
  · rename_i h
    have := hdigit '+' (by rw [h]; exact mem_cons_self)
    exact absurd this (by decide)
  · rfl

theorem parseNumber_text {n : Number} (h : (Value.number n).isKeyValue = true) :
    parseNumber (n.text floatText) = some (.number n) := by
  cases n with
  | float f => cases h
  | posInt n =>
    have hn : n < 2 ^ 63 := of_decide_eq_true h
    have hparse : parseI64 (toString n) = some n := by
      rw [parseI64, show (toString n).toList = Nat.toDigits 10 n from toList_repr, splitSign_toDigits]
      dsimp only
      rw [parseDigits_toDigits, Option.bind_some]
      exact if_pos ⟨by omega, by omega⟩
    rw [parseNumber, Number.text, hparse]
    rfl
  | negInt n =>
    have hn : n < 2 ^ 63 := of_decide_eq_true h
    have hparse : parseI64 ("-" ++ toString (n + 1)) = some (Int.negSucc n) := by
      rw [parseI64, String.toList_append,
        show (toString (n + 1)).toList = Nat.toDigits 10 (n + 1) from toList_repr]
      change (parseDigits (Nat.toDigits 10 (n + 1))).bind _ = _
      rw [parseDigits_toDigits, Option.bind_some]
      exact if_pos (⟨by omega, by omega⟩ : -2 ^ 63 ≤ Int.negSucc n ∧ Int.negSucc n < 2 ^ 63)
    rw [parseNumber, Number.text, hparse]
    rfl

theorem readsBack_of_isKeyValue {v : Value} (h : v.isKeyValue = true) : ReadsBack floatText v := by
  cases v with
  | null | bool _ | array _ | object _ => cases h
  | string text => exact ⟨_, rfl, rfl⟩
  | number n =>
    refine ⟨_, rfl, ?_⟩
    change DynamoResult.ofOption (parseNumber (n.text floatText)) _ = _
    rw [parseNumber_text floatText h]
    rfl

section

variable {floatText : F64 → String} {row : JsonMap} {fieldNames : List String} {key' : JsonMap}

structure KeyOf (floatText : F64 → String) (row : JsonMap) (fieldNames : List String) (key : JsonMap) : Prop where
  attr : ∀ name ∈ fieldNames, ∃ value attr, row.lookup name = some value ∧
    jsonToDynamodbAttr floatText value = .ok attr ∧ key.lookup name = some attr
  other : ∀ name ∉ fieldNames, key.lookup name = none

theorem KeyOf.append {field : String × String} (hkey : KeyOf floatText row fieldNames key)
    (h : appendKeyToMap floatText row key field = .ok key') :
    KeyOf floatText row (fieldNames ++ [field.2]) key' := by
  unfold appendKeyToMap at h
  split at h
  · rename_i hsome
    cases h
    have hmem : field.2 ∈ fieldNames := by
      by_contra hmem
      rw [hkey.other _ hmem] at hsome
      cases hsome
    refine ⟨fun name hname => hkey.attr name ?_, fun name hname => hkey.other name ?_⟩
    · rcases mem_append.mp hname with hname | hname
      · exact hname
      · rwa [mem_singleton.mp hname]
    · exact fun hname' => hname (mem_append_left _ hname')
  · obtain ⟨value, hvalue, h⟩ := exists_ok_of_bind h
    obtain ⟨attr, hattr, h⟩ := exists_ok_of_bind h
    cases h
    refine ⟨fun name hname => ?_, fun name hname => ?_⟩
    · by_cases heq : name = field.2
      · subst heq
        exact ⟨value, attr, ofOption_eq_ok.mp hvalue, hattr, lookup_insert key⟩
      · rcases mem_append.mp hname with hname | hname
        · rw [lookup_insert_ne heq]
          exact hkey.attr name hname
        · exact absurd (mem_singleton.mp hname) heq
    · obtain ⟨hmem, hne⟩ := not_or.mp (mem_append.not.mp hname)
      rw [lookup_insert_ne (mem_singleton.not.mp hne)]
      exact hkey.other name hmem

theorem KeyOf.foldlM {fields : List (String × String)} (hkey : KeyOf floatText row fieldNames key)
    (h : fields.foldlM (appendKeyToMap floatText row) key = .ok key') :
    KeyOf floatText row (fieldNames ++ fields.map (·.2)) key' := by
  induction fields generalizing key fieldNames with
  | nil =>
    cases h
    rwa [map_nil, append_nil]
  | cons field fields ih =>
    obtain ⟨next, hnext, h⟩ := exists_ok_of_bind h
    rw [map_cons, append_cons]
    exact ih (hkey.append hnext) h

theorem keyOf_rowToKey (h : rowToKey floatText row keySchema tableKeySchema = .ok key) :
    KeyOf floatText row (orderedKeyFields keySchema tableKeySchema) key := by
  have hempty : KeyOf floatText row [] ∅ := ⟨by simp, fun name _ => lookup_empty name⟩
  exact hempty.foldlM h

theorem exists_rowToKey (h : ∀ name ∈ orderedKeyFields keySchema tableKeySchema,
      ∃ value, row.lookup name = some value ∧ ReadsBack floatText value) :
    ∃ key, rowToKey floatText row keySchema tableKeySchema = .ok key := by
  have hfold : ∀ fields : List (String × String),
      (∀ field ∈ fields, ∃ value, row.lookup field.2 = some value ∧ ReadsBack floatText value) →
      ∀ key, ∃ key', fields.foldlM (appendKeyToMap floatText row) key = .ok key' := by
    intro fields
    induction fields with
    | nil => exact fun _ key => ⟨key, rfl⟩
    | cons field fields ih =>
      intro hfields key
      obtain ⟨hfield, hfields⟩ := forall_mem_cons.mp hfields
      have hnext : ∃ next, appendKeyToMap floatText row key field = .ok next := by
        unfold appendKeyToMap
        split
        · exact ⟨key, rfl⟩
        · obtain ⟨value, hvalue, attr, hattr, -⟩ := hfield
          exact ⟨_, bind_eq_ok.mpr ⟨value, ofOption_eq_ok.mpr hvalue, bind_eq_ok.mpr ⟨attr, hattr, rfl⟩⟩⟩
      obtain ⟨next, hnext⟩ := hnext
      obtain ⟨key', hkey'⟩ := ih hfields next
      exact ⟨key', bind_eq_ok.mpr ⟨next, hnext, hkey'⟩⟩
  exact hfold _ (fun field hfield => h field.2 (mem_map_of_mem hfield)) ∅

/-- **The key of a row parses as the row's values.** -/
theorem exists_parse_of_keyOf (hkey : KeyOf floatText row (orderedKeyFields keySchema tableKeySchema) key)
    (hback : ∀ name ∈ orderedKeyFields keySchema tableKeySchema, ∀ value, row.lookup name = some value →
      ReadsBack floatText value) :
    ∃ parsed, parseExclusiveStartKeyMap key keySchema tableKeySchema = .ok parsed ∧
      ∀ name ∈ orderedKeyFields keySchema tableKeySchema, parsed.lookup name = row.lookup name := by
  have hattr : ∀ name ∈ orderedKeyFields keySchema tableKeySchema, ∃ value attr,
      row.lookup name = some value ∧ key.lookup name = some attr ∧ dynamodbAttrToJson attr = .ok value := by
    intro name hname
    obtain ⟨value, attr, hvalue, hto, hlookup⟩ := hkey.attr name hname
    obtain ⟨attr', hto', hfrom⟩ := hback name hname value hvalue
    cases hto.symm.trans hto'
    exact ⟨value, attr, hvalue, hlookup, hfrom⟩
  have hfold : ∀ fieldNames : List String, (∀ name ∈ fieldNames, name ∈ orderedKeyFields keySchema tableKeySchema) →
      ∀ parsed, ∃ parsed', fieldNames.foldlM (parseStartKeyField key) parsed = .ok parsed' := by
    intro fieldNames
    induction fieldNames with
    | nil => exact fun _ parsed => ⟨parsed, rfl⟩
    | cons name fieldNames ih =>
      intro hnames parsed
      obtain ⟨hname, hnames⟩ := forall_mem_cons.mp hnames
      obtain ⟨value, attr, -, hlookup, hfrom⟩ := hattr name hname
      obtain ⟨parsed', hparsed'⟩ := ih hnames (parsed.insert name value)
      have hnext : parseStartKeyField key parsed name = .ok (parsed.insert name value) :=
        bind_eq_ok.mpr ⟨attr, ofOption_eq_ok.mpr hlookup, bind_eq_ok.mpr ⟨value, hfrom, rfl⟩⟩
      exact ⟨parsed', bind_eq_ok.mpr ⟨_, hnext, hparsed'⟩⟩
  obtain ⟨parsed, hparsed⟩ := hfold _ (fun _ h => h) ∅
  obtain ⟨hin, hout⟩ := lookup_parseStartKeyFields hparsed
  have hlookup : ∀ name ∈ orderedKeyFields keySchema tableKeySchema, parsed.lookup name = row.lookup name := by
    intro name hname
    obtain ⟨attr, v, hattr', hv, hname'⟩ := hin name hname
    obtain ⟨value, attr', hvalue, hkey', hfrom⟩ := hattr name hname
    cases hattr'.symm.trans hkey'
    rw [hname', hvalue, ok.inj (hv.symm.trans hfrom)]
  have hlength : key.entries.length = parsed.entries.length := by
    refine Dict.length_entries_eq fun name => ?_
    by_cases hname : name ∈ orderedKeyFields keySchema tableKeySchema
    · obtain ⟨value, attr, hvalue, hattr', -⟩ := hattr name hname
      rw [hlookup name hname, hvalue, hattr']
      rfl
    · rw [hkey.other name hname, hout name hname]
      rfl
  refine ⟨parsed, bind_eq_ok.mpr ⟨parsed, hparsed, ?_⟩, hlookup⟩
  rw [if_neg (not_not.mpr hlength)]

end

/-! ### Tightening -/

theorem boundCompares_eq_ok {bound : Option Value} {test : Ordering → Bool} {b : Bool}
    (h : boundCompares bound candidate test = .ok b) :
    bound = none ∧ b = false ∨
      ∃ existing o, bound = some existing ∧ compareScalarValues existing candidate = some o ∧ b = test o := by
  cases bound with
  | none => exact Or.inl ⟨rfl, (ok.inj h).symm⟩
  | some existing =>
    rw [boundCompares, compareScalars] at h
    cases hcmp : compareScalarValues existing candidate with
    | none =>
      rw [hcmp] at h
      cases h
    | some o =>
      rw [hcmp] at h
      exact Or.inr ⟨existing, o, rfl, hcmp, (ok.inj h).symm⟩

/-- The way in which a bound has to compare with a value that tightens it. -/
def passes (ascending : Bool) : Ordering := if ascending then .lt else .gt

namespace ReadPredicate

/-- The strict bound at the end that a query starts from. -/
def strictBound (filter : ReadPredicate) (ascending : Bool) : Option Value :=
  if ascending then filter.gt else filter.lt

def inclusiveBound (filter : ReadPredicate) (ascending : Bool) : Option Value :=
  if ascending then filter.gte else filter.lte

/-- A range that is tightened to what comes behind a value. -/
def after (filter : ReadPredicate) (ascending : Bool) (value : Value) : ReadPredicate :=
  if ascending then { filter with gt := some value, gte := none }
  else { filter with lt := some value, lte := none }

end ReadPredicate

/-- What the two tightenings share: a strict bound that the candidate does not pass stays, an inclusive
one that the candidate does not reach becomes strict, and otherwise the candidate is the bound. -/
theorem tightened_cases {strict inclusive : Option Value} {o : Ordering} {keep : ReadPredicate}
    (tighten : Option Value → ReadPredicate) (h : (do
      if ← boundCompares strict candidate (· ≠ o) then .ok keep
      else if ← boundCompares inclusive candidate (· = o.swap) then .ok (tighten inclusive)
      else .ok (tighten candidate) : DynamoResult ReadPredicate) = .ok filter) :
    (∃ bound, strict = some bound ∧ compareScalarValues bound candidate ≠ some o ∧ filter = keep) ∨
    (∃ bound, inclusive = some bound ∧ compareScalarValues bound candidate = some o.swap ∧ filter = tighten bound) ∨
    (∀ bound ∈ strict, compareScalarValues bound candidate = some o) ∧
      (∀ bound ∈ inclusive, compareScalarValues bound candidate ≠ some o.swap) ∧ filter = tighten candidate := by
  obtain ⟨first, hfirst, h⟩ := exists_ok_of_bind h
  have hstrict := boundCompares_eq_ok hfirst
  cases first with
  | true =>
    cases h
    rcases hstrict with ⟨-, hfalse⟩ | ⟨bound, o', rfl, hcmp, htest⟩
    · cases hfalse
    · refine Or.inl ⟨bound, rfl, fun heq => ?_, rfl⟩
      rw [hcmp] at heq
      exact of_decide_eq_true htest.symm (Option.some.inj heq)
  | false =>
    have hbefore : ∀ bound ∈ strict, compareScalarValues bound candidate = some o := by
      rcases hstrict with ⟨rfl, -⟩ | ⟨bound, o', rfl, hcmp, htest⟩
      · simp
      · rintro _ ⟨⟩
        rw [hcmp, not_not.mp (of_decide_eq_false htest.symm)]
    obtain ⟨second, hsecond, h⟩ := exists_ok_of_bind h
    have hinclusive := boundCompares_eq_ok hsecond
    cases second with
    | true =>
      cases h
      rcases hinclusive with ⟨-, hfalse⟩ | ⟨bound, o', rfl, hcmp, htest⟩
      · cases hfalse
      · exact Or.inr (Or.inl ⟨bound, rfl, by rw [hcmp, of_decide_eq_true htest.symm], rfl⟩)
    | false =>
      cases h
      refine Or.inr (Or.inr ⟨hbefore, ?_, rfl⟩)
      rcases hinclusive with ⟨rfl, -⟩ | ⟨bound, o', rfl, hcmp, htest⟩
      · simp
      · rintro _ ⟨⟩ heq
        rw [hcmp] at heq
        exact of_decide_eq_false htest.symm (Option.some.inj heq)

theorem continueFilter_cases {ascending : Bool} {filter' : ReadPredicate} (heq : filter.eq = none)
    (h : continueFilter ascending candidate filter = .ok filter') :
    (∃ bound, filter.strictBound ascending = some bound ∧
      compareScalarValues bound candidate ≠ some (passes ascending) ∧ filter' = filter) ∨
    (∃ bound, filter.inclusiveBound ascending = some bound ∧
      compareScalarValues bound candidate = some (passes ascending).swap ∧ filter' = filter.after ascending bound) ∨
    (∀ bound ∈ filter.strictBound ascending, compareScalarValues bound candidate = some (passes ascending)) ∧
      (∀ bound ∈ filter.inclusiveBound ascending, compareScalarValues bound candidate ≠ some (passes ascending).swap) ∧
      filter' = filter.after ascending candidate := by
  rw [continueFilter, heq] at h
  cases ascending with
  | true => exact tightened_cases (fun bound => { filter with gt := bound, gte := none }) h
  | false => exact tightened_cases (fun bound => { filter with lt := bound, lte := none }) h

/-! ### The filters of a continued query -/

section

variable {ascending : Bool} {start : JsonMap} {filters filters' : List ReadPredicate} {sortKey : String}

theorem applyExclusiveStartKey_eq_ok (hsort : keySchema.sortKey = some sortKey)
    (h : applyExclusiveStartKey filters keySchema tableKeySchema ascending start = .ok filters') :
    ∃ parsed partitionFilter partitionValue startValue,
      parseExclusiveStartKeyMap start keySchema tableKeySchema = .ok parsed ∧
      parsed.lookup keySchema.partitionKey = some partitionValue ∧
      (filters.find? fun filter => filter.field = keySchema.partitionKey).bind (·.eq) = some partitionFilter ∧
      partitionFilter.jsonEq partitionValue = true ∧
      parsed.lookup sortKey = some startValue ∧
      continueFilters sortKey ascending startValue filters = .ok filters' := by
  rw [applyExclusiveStartKey, hsort] at h
  obtain ⟨parsed, hparsed, h⟩ := exists_ok_of_bind h
  obtain ⟨partitionValue, hvalue, h⟩ := exists_ok_of_bind h
  obtain ⟨partitionFilter, hfilter, h⟩ := exists_ok_of_bind h
  split at h
  · cases h
  rename_i hne
  obtain ⟨startValue, hstart, h⟩ := exists_ok_of_bind h
  refine ⟨parsed, partitionFilter, partitionValue, startValue, hparsed,
    ofOption_eq_ok.mp hvalue, ofOption_eq_ok.mp hfilter, ?_,
    ofOption_eq_ok.mp hstart, h⟩
  simpa using hne

def continuedSortFilter (sortKey : String) (ascending : Bool) (startValue : Value) :
    Option ReadPredicate → DynamoResult ReadPredicate
  | none => .ok (startPredicate sortKey ascending startValue)
  | some filter => continueFilter ascending startValue filter

theorem continueFilters_queryFilters (hne : keySchema.partitionKey ≠ sortKey) {partitionValue startValue : Value}
    {sortFilter : Option ReadPredicate} (hfield : ∀ filter ∈ sortFilter, filter.field = sortKey) :
    continueFilters sortKey ascending startValue (queryFilters keySchema partitionValue sortFilter) =
      (continuedSortFilter sortKey ascending startValue sortFilter).map fun filter =>
        queryFilters keySchema partitionValue (some filter) := by
  cases sortFilter with
  | none => simp [queryFilters, continueFilters, continuedSortFilter, hne, Except.map]
  | some filter =>
    have hfilter : filter.field = sortKey := hfield filter rfl
    simp only [queryFilters, Option.toList_some, continueFilters, continuedSortFilter, if_neg hne, if_pos hfilter]
    cases continueFilter ascending startValue filter <;> rfl

end

end PowdrrEngine
