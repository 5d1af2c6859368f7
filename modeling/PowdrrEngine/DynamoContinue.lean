import PowdrrEngine.DynamoAdmission
import PowdrrEngine.DynamoPages
import PowdrrEngine.ServingExactOrder

/-! What a continued query selects. The start key is the key of a row that the query returned; where the
sort condition can be tightened to the row's value, the rows that are left are those strictly behind it. -/

namespace PowdrrEngine

open List Option ReadPredicate

variable {type : ScalarType}

/-! ### Projected rows -/

theorem lookup_projectFields (value : String → Option Value) (fields : List String) (projected : ServingRow)
    (name : String) :
    (fields.foldl (fun projected field =>
      match value field with
      | some v => projected.insert field v
      | none => projected) projected).lookup name =
      if name ∈ fields then (value name).or (projected.lookup name) else projected.lookup name := by
  induction fields generalizing projected with
  | nil => simp
  | cons field fields ih =>
    rw [foldl_cons, ih]
    by_cases hname : name = field
    · subst hname
      cases hvalue : value name with
      | none => simp
      | some v => simp
    have hlookup : ((match value field with
        | some v => projected.insert field v
        | none => projected) : ServingRow).lookup name = projected.lookup name := by
      cases value field with
      | none => rfl
      | some v => exact AList.lookup_insert_ne hname
    rw [hlookup]
    simp [hname]

/-! ### Tightened ranges -/

/-- A range with at most one bound at each end. -/
structure ReadPredicate.IsRange (filter : ReadPredicate) : Prop where
  eq : filter.eq = none
  inValues : filter.inValues = none
  lower : filter.gt = none ∨ filter.gte = none
  upper : filter.lt = none ∨ filter.lte = none

/-- The range of a query: without a condition it is the whole partition. -/
def sortRange (sortKey : String) (sortFilter : Option ReadPredicate) : ReadPredicate :=
  sortFilter.getD { field := sortKey }

/-- The values that a scan comes to after the start value, as SQL compares them. -/
def Behind (ascending : Bool) (start value : Value) : Prop := sqlCompare value start = some (passes ascending).swap

instance (ascending : Bool) (start value : Value) : Decidable (Behind ascending start value) :=
  inferInstanceAs (Decidable (_ = _))

/-- What a range accepts at the end that a scan starts from. -/
@[mk_iff past_iff]
structure ReadPredicate.Past (filter : ReadPredicate) (ascending : Bool) (value : Value) : Prop where
  strict : ∀ bound ∈ filter.strictBound ascending, sqlCompare value bound = some (passes ascending).swap
  inclusive : ∀ bound ∈ filter.inclusiveBound ascending, ∃ o, sqlCompare value bound = some o ∧ o ≠ passes ascending

section

variable {sortKey : String} {sortFilter : Option ReadPredicate} {ascending : Bool} {value other bound : Value}
  {filter filter' : ReadPredicate}

theorem passes_swap_ne : (passes ascending).swap ≠ .eq := by cases ascending <;> decide

theorem passes_swap_ne_passes : (passes ascending).swap ≠ passes ascending := by cases ascending <;> decide

theorem ReadPredicate.IsRange.oneBound (h : filter.IsRange) (ascending : Bool) :
    filter.strictBound ascending = none ∨ filter.inclusiveBound ascending = none := by
  cases ascending with
  | true => exact h.lower
  | false => exact h.upper

theorem ReadPredicate.IsRange.accepts_iff (h : filter.IsRange) (ascending : Bool) :
    filter.accepts sqlCompare value = true ↔ filter.Past ascending value ∧ filter.Past (!ascending) value := by
  have hboth : filter.accepts sqlCompare value = true ↔ filter.Past true value ∧ filter.Past false value := by
    simp only [past_iff, ReadPredicate.accepts, h.eq, h.inValues, Bool.and_eq_true, Option.all_eq_true,
      Option.any_eq_true, Ordering.isGT_iff_eq_gt, Ordering.isGE_iff_ne_lt, Ordering.isLT_iff_eq_lt,
      Ordering.isLE_iff_ne_gt, exists_eq_right, and_assoc]
    exact Iff.rfl
  cases ascending with
  | true => exact hboth
  | false => exact hboth.trans and_comm

theorem accepts_after_iff (hrange : filter.IsRange) : (filter.after ascending bound).accepts sqlCompare value = true ↔
      Behind ascending bound value ∧ filter.Past (!ascending) value := by
  have hrange' : (filter.after ascending bound).IsRange := by
    cases ascending
    · exact ⟨hrange.eq, hrange.inValues, hrange.lower, Or.inr rfl⟩
    · exact ⟨hrange.eq, hrange.inValues, Or.inr rfl, hrange.upper⟩
  rw [hrange'.accepts_iff ascending]
  refine and_congr ?_ ?_
  · cases ascending <;>
      simp [past_iff, Behind, ReadPredicate.strictBound, ReadPredicate.inclusiveBound, ReadPredicate.after]
  · cases ascending <;> exact ⟨fun h => ⟨h.strict, h.inclusive⟩, fun h => ⟨h.strict, h.inclusive⟩⟩

theorem compareScalarValues_ne_of_sqlCompare {o : Ordering} (ho : sqlCompare value bound = some o)
    (hne : o ≠ passes ascending) : ∃ p, compareScalarValues value bound = some p ∧ p ≠ passes ascending := by
  rcases compareScalarValues_of_sqlCompare ho with h | h
  · exact ⟨o, h, hne⟩
  · exact ⟨.eq, h, by cases ascending <;> decide⟩

theorem compareScalarValues_past {o : Ordering} (ho : sqlCompare value bound = some o) (hne : o ≠ passes ascending)
    (h : compareScalarValues bound other = some (passes ascending).swap) :
    compareScalarValues value other = some (passes ascending).swap := by
  obtain ⟨p, hp, hne⟩ := compareScalarValues_ne_of_sqlCompare ho hne
  rw [compareScalarValues_trans hp h]
  refine congrArg some (TopK.eq_of_ne_swap passes_swap_ne ?_ (columnOrder_of_scalar h))
  rwa [columnOrder_of_scalar hp, Ordering.swap_swap]

/-- What is not in front of a bound is behind everything that the bound is behind as a double. -/
theorem behind_of_sqlCompare {o : Ordering} (ho : sqlCompare value bound = some o) (hne : o ≠ passes ascending)
    (h : compareScalarValues bound other = some (passes ascending).swap) : Behind ascending other value :=
  sqlCompare_of_compareScalarValues passes_swap_ne (compareScalarValues_past ho hne h)

theorem passes_iff : compareScalarValues bound value = some (passes ascending) ↔
    compareScalarValues value bound = some (passes ascending).swap := by
  rw [compareScalarValues_swap bound value]
  cases compareScalarValues bound value <;> simp

end

/-! ### Exact continuation -/

section

variable {sortKey : String} {ascending : Bool} {start value bound literal : Value}
  {sortFilter : Option ReadPredicate} {filter filter' : ReadPredicate}

/-- A tightened filter accepts, of the values of a column, those of the filter behind the start value. -/
def ContinuesExactly (type : ScalarType) (ascending : Bool) (start : Value) (filter filter' : ReadPredicate) : Prop :=
  ∀ value, type.has value = true → (filter'.accepts sqlCompare value = true ↔
    filter.accepts sqlCompare value = true ∧ Behind ascending start value)

/-- When continuing a filter is exact. A filter that is kept has values behind the start value only. An
inclusive bound that the start value does not reach is made strict, so that it must not be accepted itself.
And where the start value replaces an inclusive bound, which compares the two as doubles, the values behind
it are past the bound. -/
def ReadPredicate.ContinuesAt (filter : ReadPredicate) (type : ScalarType) (ascending : Bool) (start : Value) : Prop :=
  let behind := ∀ value, type.has value = true → filter.accepts sqlCompare value = true → Behind ascending start value
  match filter.eq, filter.strictBound ascending, filter.inclusiveBound ascending with
  | some literal, _, _ => literal.jsonEq start = true ∨ behind
  | none, some bound, _ => compareScalarValues bound start = some (passes ascending) ∨ behind
  | none, none, some bound =>
    if compareScalarValues bound start = some (passes ascending).swap then
      ∀ value, type.has value = true → filter.accepts sqlCompare value = true → sqlCompare value bound ≠ some .eq
    else ∀ value, type.has value = true → Behind ascending start value → filter.Past (!ascending) value →
      filter.Past ascending value
  | none, none, none => True

theorem sqlCompareNumbers_float {n : Number} {a b : F64} (h : a.toDyadic.cmp b.toDyadic = .eq) :
    sqlCompareNumbers n (.float a) = sqlCompareNumbers n (.float b) := by
  have hcmp : n.asF64.cmp a.toDyadic = n.asF64.cmp b.toDyadic := Std.TransCmp.congr_right h
  cases n <;> exact hcmp

/-- SQL does not tell values apart that are equal in JSON. -/
theorem sqlCompare_of_jsonEq (h : literal.jsonEq start = true) (hscalar : (sqlCompare value literal).isSome = true) :
    sqlCompare value literal = sqlCompare value start := by
  cases literal with
  | null | array _ | object _ => cases value <;> cases hscalar
  | bool _ | string _ => cases start <;> simp_all [Value.jsonEq]
  | number n =>
    cases start with
    | null | bool _ | string _ | array _ | object _ => simp [Value.jsonEq] at h
    | number m =>
      rw [Value.jsonEq] at h
      cases n <;> cases m <;> simp [Number.jsonEq] at h
      · rw [h]
      · rw [h]
      · cases value with
        | number k => exact congrArg some (sqlCompareNumbers_float h)
        | null | bool _ | string _ | array _ | object _ => rfl

theorem continuesExactly_self_iff : ContinuesExactly type ascending start filter filter ↔
    ∀ value, type.has value = true → filter.accepts sqlCompare value = true → Behind ascending start value := by
  simp only [ContinuesExactly, iff_self_and]

theorem continuesExactly_start_iff (hrange : filter.IsRange) :
    ContinuesExactly type ascending start filter (filter.after ascending start) ↔
      ∀ value, type.has value = true → Behind ascending start value → filter.Past (!ascending) value →
        filter.Past ascending value := by
  refine forall₂_congr fun value _ => ?_
  rw [accepts_after_iff hrange, hrange.accepts_iff ascending]
  tauto

theorem continuesExactly_bound_iff (hrange : filter.IsRange) (hbound : filter.inclusiveBound ascending = some bound)
    (hbeyond : compareScalarValues bound start = some (passes ascending).swap) :
    ContinuesExactly type ascending start filter (filter.after ascending bound) ↔
      ∀ value, type.has value = true → filter.accepts sqlCompare value = true → sqlCompare value bound ≠ some .eq := by
  have hnone : filter.strictBound ascending = none := (hrange.oneBound ascending).resolve_right (by simp [hbound])
  refine forall₂_congr fun value _ => ?_
  have hnear : filter.Past ascending value ↔ ∃ o, sqlCompare value bound = some o ∧ o ≠ passes ascending := by
    simp [past_iff, hnone, hbound]
  have hlater : filter.Past ascending value → Behind ascending start value := by
    rw [hnear]
    rintro ⟨o, ho, hne⟩
    exact behind_of_sqlCompare ho hne hbeyond
  have hpast : Behind ascending bound value ↔ filter.Past ascending value ∧ sqlCompare value bound ≠ some .eq := by
    rw [hnear, Behind]
    cases sqlCompare value bound with
    | none => simp
    | some o => cases o <;> cases ascending <;> simp [passes]
  rw [accepts_after_iff hrange, hrange.accepts_iff ascending]
  tauto

theorem continuesExactly_iff (hrange : filter.IsRange) (h : continueFilter ascending start filter = .ok filter') :
    ContinuesExactly type ascending start filter filter' ↔ filter.ContinuesAt type ascending start := by
  unfold ReadPredicate.ContinuesAt
  rw [hrange.eq]
  rcases continueFilter_cases hrange.eq h with ⟨bound, hbound, hstuck, rfl⟩ | ⟨bound, hbound, hbeyond, rfl⟩ |
    ⟨hstrict, hinclusive, rfl⟩
  · simp only [hbound, hstuck, false_or]
    exact continuesExactly_self_iff
  · simp only [hbound, (hrange.oneBound ascending).resolve_right (by simp [hbound]), if_pos hbeyond]
    exact continuesExactly_bound_iff hrange hbound hbeyond
  rw [continuesExactly_start_iff hrange]
  cases hs : filter.strictBound ascending with
  | some bound =>
    simp only [hstrict bound hs, true_or, iff_true]
    refine fun value _ hlater _ => ⟨fun bound' hbound' => ?_, ?_⟩
    · exact behind_of_sqlCompare hlater passes_swap_ne_passes (passes_iff.mp (hstrict bound' hbound'))
    · simp [(hrange.oneBound ascending).resolve_left (by simp [hs])]
  | none =>
    cases hi : filter.inclusiveBound ascending with
    | some bound => simp only [if_neg (hinclusive bound hi)]
    | none => simp [past_iff, hs, hi]

theorem continuesExactly_eq_iff (hin : filter.inValues = none) (heq : filter.eq = some literal)
    (h : continueFilter ascending start filter = .ok filter') :
    ContinuesExactly type ascending start filter filter' ↔ filter.ContinuesAt type ascending start := by
  unfold ReadPredicate.ContinuesAt
  rw [continueFilter, heq] at h
  simp only [heq] at h ⊢
  cases hjson : literal.jsonEq start with
  | false =>
    rw [hjson] at h
    cases h
    simpa using continuesExactly_self_iff
  | true =>
    rw [hjson] at h
    cases h
    simp only [true_or, iff_true]
    -- nothing is above and below the start value, and nothing that equals it comes behind it
    refine fun value _ => iff_of_false (fun haccepts => ?_) ?_
    · simp only [ReadPredicate.accepts, hin] at haccepts
      cases hcmp : sqlCompare value start with
      | none => simp [hcmp] at haccepts
      | some o => cases o <;> simp [hcmp] at haccepts
    · rintro ⟨haccepts, hlater⟩
      simp only [ReadPredicate.accepts, heq, Option.any_eq_true, Ordering.isEq_iff_eq_eq, exists_eq_right] at haccepts
      rw [Behind, ← sqlCompare_of_jsonEq hjson (by rw [haccepts]; rfl), haccepts] at hlater
      exact passes_swap_ne (Option.some.inj hlater).symm

/-! ### The condition in closed form -/

/-- A query can be continued at a value unless it is an equality that does not end there, or the value is in
front of an inclusive bound that is accepted. -/
def ReadPredicate.continuesAt (filter : ReadPredicate) (ascending : Bool) (start : Value) : Bool :=
  match filter.eq, filter.inclusiveBound ascending with
  | some literal, _ => literal.jsonEq start || decide (Behind ascending start literal)
  | none, some bound => !(decide (Behind ascending start bound) && filter.accepts sqlCompare bound)
  | none, none => true

theorem ReadPredicate.strictBound_mem (h : filter.strictBound ascending = some bound) : bound ∈ filter.literals := by
  cases ascending <;> simp_all [ReadPredicate.literals, ReadPredicate.strictBound]

theorem ReadPredicate.inclusiveBound_mem (h : filter.inclusiveBound ascending = some bound) :
    bound ∈ filter.literals := by
  cases ascending <;> simp_all [ReadPredicate.literals, ReadPredicate.inclusiveBound]

theorem sqlCompare_self (hvalue : type.has value = true) : sqlCompare value value = some .eq :=
  (sqlCompare_of_has hvalue hvalue).trans (congrArg some Std.ReflCmp.compare_self)

/-- Behind what is not in front. -/
theorem exactOrder_trans {a b c : Value} (hab : exactOrder a b = (passes ascending).swap)
    (hbc : exactOrder b c ≠ passes ascending) : exactOrder a c = (passes ascending).swap := by
  cases ascending with
  | true => exact Std.TransCmp.gt_of_gt_of_isGE hab (Ordering.isGE_iff_ne_lt.mpr hbc)
  | false => exact Std.TransCmp.lt_of_lt_of_isLE hab (Ordering.isLE_iff_ne_gt.mpr hbc)

section

variable {other : Value} (hliterals : ∀ bound ∈ filter.literals, type.has bound = true)

include hliterals

theorem ReadPredicate.Past.congr (hvalue : type.has value = true) (hother : type.has other = true)
    (heq : exactOrder other value = .eq) (h : filter.Past ascending value) : filter.Past ascending other := by
  have hsame : ∀ bound ∈ filter.literals, sqlCompare other bound = sqlCompare value bound := fun bound hbound => by
    rw [sqlCompare_of_has hother (hliterals bound hbound), sqlCompare_of_has hvalue (hliterals bound hbound),
      Std.TransCmp.congr_left heq]
  refine ⟨fun bound hbound => ?_, fun bound hbound => ?_⟩
  · rw [hsame bound (strictBound_mem hbound)]
    exact h.strict bound hbound
  · rw [hsame bound (inclusiveBound_mem hbound)]
    exact h.inclusive bound hbound

variable (hstart : type.has start = true)
  (hagree : ∀ bound ∈ filter.literals, compareScalarValues bound start = sqlCompare bound start)

include hstart hagree

/-- **The closed form**, for literals of the column's type that compare with the start value as doubles as
they do exactly. -/
theorem ReadPredicate.continuesAt_iff (hrange : filter.eq = none → filter.IsRange) :
    filter.ContinuesAt type ascending start ↔ filter.continuesAt ascending start = true := by
  have horder : ∀ bound ∈ filter.literals, compareScalarValues bound start = some (exactOrder bound start) :=
    fun bound hbound => (hagree bound hbound).trans (sqlCompare_of_has (hliterals bound hbound) hstart)
  unfold ReadPredicate.ContinuesAt ReadPredicate.continuesAt
  cases heq : filter.eq with
  | some literal =>
    have hliteral := hliterals literal (by simp [ReadPredicate.literals, heq])
    simp only [Bool.or_eq_true, decide_eq_true_eq]
    refine or_congr_right ⟨fun h => ?_, fun h value hvalue haccepts => ?_⟩
    · refine h literal hliteral ?_
      simp [ReadPredicate.accepts, heq, sqlCompare_self hliteral]
    · simp only [ReadPredicate.accepts, heq, sqlCompare_of_has hvalue hliteral, any_some,
        Ordering.isEq_iff_eq_eq] at haccepts
      rw [Behind, sqlCompare_of_has hvalue hstart, Std.TransCmp.congr_left haccepts,
        ← sqlCompare_of_has hliteral hstart]
      exact h
  | none =>
    have hrange := hrange heq
    cases hs : filter.strictBound ascending with
    | some bound =>
      have hmem := ReadPredicate.strictBound_mem hs
      simp only [(hrange.oneBound ascending).resolve_left (by simp [hs]), iff_true]
      refine or_iff_not_imp_left.mpr fun hstuck value hvalue haccepts => ?_
      rw [horder bound hmem, Option.some.injEq] at hstuck
      have hstrict := ((hrange.accepts_iff ascending).mp haccepts).1.strict bound hs
      rw [sqlCompare_of_has hvalue (hliterals bound hmem), Option.some.injEq] at hstrict
      rw [Behind, sqlCompare_of_has hvalue hstart, exactOrder_trans hstrict hstuck]
    | none =>
      cases hi : filter.inclusiveBound ascending with
      | none => simp
      | some bound =>
        have hmem := ReadPredicate.inclusiveBound_mem hi
        have hbound := hliterals bound hmem
        have hbehind : compareScalarValues bound start = some (passes ascending).swap ↔ Behind ascending start bound := by
          rw [hagree bound hmem, Behind]
        simp only [hbehind, Bool.not_eq_true', Bool.and_eq_false_iff, decide_eq_false_iff_not]
        split
        · rename_i hfront
          simp only [hfront, not_true_eq_false, false_or]
          constructor
          · intro h
            by_contra haccepts
            refine h bound hbound (by simpa using haccepts) ?_
            exact sqlCompare_self hbound
          · intro h value hvalue haccepts hsame
            rw [sqlCompare_of_has hvalue hbound, Option.some.injEq] at hsame
            rw [hrange.accepts_iff ascending] at haccepts
            have haccepted : filter.accepts sqlCompare bound = true := (hrange.accepts_iff ascending).mpr
              ⟨haccepts.1.congr hliterals hvalue hbound (Std.OrientedCmp.eq_symm hsame),
                haccepts.2.congr hliterals hvalue hbound (Std.OrientedCmp.eq_symm hsame)⟩
            rw [h] at haccepted
            cases haccepted
        · rename_i hreached
          simp only [hreached, not_false_eq_true, true_or, iff_true]
          intro value hvalue hlater _
          rw [Behind, sqlCompare_of_has hvalue hstart, Option.some.injEq] at hlater
          rw [Behind, sqlCompare_of_has hbound hstart, Option.some.injEq] at hreached
          have hswap : exactOrder bound start = (exactOrder start bound).swap := Std.OrientedCmp.eq_swap
          have hpast : exactOrder value bound = (passes ascending).swap :=
            exactOrder_trans hlater fun hpasses => hreached (by rw [hswap, hpasses])
          refine ⟨by simp [hs], fun bound' hbound' => ⟨(passes ascending).swap, ?_, passes_swap_ne_passes⟩⟩
          obtain rfl : bound = bound' := Option.some.inj (hi.symm.trans hbound')
          rw [sqlCompare_of_has hvalue hbound, hpast]

end

/-- **Continuation filters.** The filter on the sort key that a start key leads to accepts the values of the
condition behind the start key exactly if the condition can be continued at it. -/
theorem applyExclusiveStartKey_exact_iff {keySchema : DynamoDbKeySchemaConfig} {partitionValue : Value}
    {filters : List ReadPredicate} (tableKeySchema : DynamoDbKeySchemaConfig) (key : JsonMap)
    (hsort : keySchema.sortKey = some sortKey) (hne : keySchema.partitionKey ≠ sortKey)
    (hfilter : ∀ filter ∈ sortFilter, filter.field = sortKey ∧ filter.inValues = none ∧
      (filter.eq = none → filter.IsRange))
    (hkey : (key.lookup sortKey).map dynamodbAttrToJson = some (.ok start))
    (h : applyExclusiveStartKey (queryFilters keySchema partitionValue sortFilter) keySchema tableKeySchema ascending
      key = .ok filters) :
    ∃ filter', filters = queryFilters keySchema partitionValue (some filter') ∧
      (ContinuesExactly type ascending start (sortRange sortKey sortFilter) filter' ↔
        (sortRange sortKey sortFilter).ContinuesAt type ascending start) := by
  obtain ⟨parsed, _, _, startValue, hparsed, -, -, -, hlookup, hcontinue⟩ := applyExclusiveStartKey_eq_ok hsort h
  have hmem : sortKey ∈ orderedKeyFields keySchema tableKeySchema :=
    mem_orderedKeyFields (by simp [DynamoDbKeySchemaConfig.fields, hsort])
  obtain ⟨attr, value, hattr, hvalue, hlookup'⟩ := lookup_parseExclusiveStartKeyMap hparsed hmem
  cases hlookup.symm.trans hlookup'
  obtain rfl : startValue = start := by simpa [hattr, hvalue] using hkey
  rw [continueFilters_queryFilters hne fun filter hmem => (hfilter filter hmem).1, Run.map_eq_ok] at hcontinue
  obtain ⟨filter', hcontinue, rfl⟩ := hcontinue
  refine ⟨filter', rfl, ?_⟩
  cases sortFilter with
  | none =>
    refine continuesExactly_iff ⟨rfl, rfl, Or.inl rfl, Or.inl rfl⟩ ?_
    cases ascending <;> exact hcontinue
  | some filter =>
    obtain ⟨-, hin, hrange⟩ := hfilter filter rfl
    cases heq : filter.eq with
    | none => exact continuesExactly_iff (hrange heq) hcontinue
    | some literal => exact continuesExactly_eq_iff hin heq hcontinue

def startKeyAt (number : String) : JsonMap :=
  Dict.insertAll ∅ [("p", .object [("S", .string "a")]), ("s", .object [("N", .string number)])]

theorem applyExclusiveStartKey_exact_iff_five :
    ∃ filter', queryFilters ⟨"p", some "s"⟩ (.string "a") (some { field := "s", gt := some (.int 7) }) =
      queryFilters ⟨"p", some "s"⟩ (.string "a") (some filter') ∧
      (ContinuesExactly .integer true (.int 7) (sortRange "s" (some { field := "s", gte := some (.int 5) })) filter' ↔
        (sortRange "s" (some { field := "s", gte := some (.int 5) })).ContinuesAt .integer true (.int 7)) :=
  applyExclusiveStartKey_exact_iff ⟨"p", some "s"⟩ (startKeyAt "7") rfl (by decide)
    (by rintro _ ⟨⟩; exact ⟨rfl, rfl, fun _ => ⟨rfl, rfl, Or.inl rfl, Or.inl rfl⟩⟩) (by decide +kernel)
    (by decide +kernel)

/-- A start key in front of an inclusive bound loses the value at the bound, and a start key behind the
value of an equality does not end the query. -/
theorem applyExclusiveStartKey_inexact :
    applyExclusiveStartKey (queryFilters ⟨"p", some "s"⟩ (.string "a") (some { field := "s", gte := some (.int 5) }))
        ⟨"p", some "s"⟩ ⟨"p", some "s"⟩ true (startKeyAt "3") =
      .ok (queryFilters ⟨"p", some "s"⟩ (.string "a") (some { field := "s", gt := some (.int 5) })) ∧
    ({ field := "s", gte := some (.int 5) } : ReadPredicate).accepts sqlCompare (.int 5) = true ∧
    Behind true (.int 3) (.int 5) ∧
    ({ field := "s", gt := some (.int 5) } : ReadPredicate).accepts sqlCompare (.int 5) = false ∧
    applyExclusiveStartKey (queryFilters ⟨"p", some "s"⟩ (.string "a") (some { field := "s", eq := some (.int 5) }))
        ⟨"p", some "s"⟩ ⟨"p", some "s"⟩ true (startKeyAt "7") =
      .ok (queryFilters ⟨"p", some "s"⟩ (.string "a") (some { field := "s", eq := some (.int 5) })) ∧
    sqlCompare (.int 5) (.int 7) = some .lt := by
  decide +kernel

end

end PowdrrEngine
