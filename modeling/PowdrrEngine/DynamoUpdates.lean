import PowdrrEngine.DynamoNumbers
import PowdrrEngine.DynamoSerial

/-! The arithmetic of updates. Two integers of 64 bits are added in 64 bits and wrap around, other numbers
are added as doubles. Sets are lists of members that are compared by `==`: an addition appends what is
missing, and a removal drops the attribute with its last member. -/

namespace PowdrrEngine

open List Except Run

variable {object : JsonMap} {field marker : String} {members operands : List Value}

def HasMember (members : List Value) (value : Value) : Prop := ∃ member ∈ members, member.jsonEq value = true

/-- No two members are equal. -/
def NoDuplicates (members : List Value) : Prop := members.Pairwise fun earlier later => earlier.jsonEq later = false

/-- A union of two sets: the members of both are found in it, it has no others, and none twice. -/
structure IsUnion (members operands union : List Value) : Prop where
  left : members ⊆ union
  right : ∀ value ∈ operands, HasMember union value
  only : ∀ value ∈ union, value ∈ members ∨ value ∈ operands
  noDuplicates : NoDuplicates members → NoDuplicates union

theorem dynamodbSetMembers_setValue (hmarker : marker ∈ setMarkers) :
    dynamodbSetMembers (setValue marker members) = some (marker, members) := by
  simp only [setMarkers, mem_cons, not_mem_nil, or_false] at hmarker
  rcases hmarker with rfl | rfl | rfl <;> rfl

theorem pushMember_of_hasMember {value : Value} (h : HasMember members value) : pushMember members value = members :=
  if_pos (any_eq_true.mpr h)

theorem isUnion_foldl_pushMember (hself : ∀ value ∈ operands, value.jsonEq value = true) :
    IsUnion members operands (operands.foldl pushMember members) := by
  induction operands generalizing members with
  | nil => exact ⟨fun _ => id, nofun, fun _ => Or.inl, id⟩
  | cons operand operands ih =>
    obtain ⟨hoperand, hself⟩ := forall_mem_cons.mp hself
    have hunion : IsUnion (pushMember members operand) operands _ := ih hself
    have hpush : members ⊆ pushMember members operand ∧ HasMember (pushMember members operand) operand ∧
        (∀ value ∈ pushMember members operand, value ∈ members ∨ value = operand) ∧
        (NoDuplicates members → NoDuplicates (pushMember members operand)) := by
      unfold pushMember
      split
      · rename_i h
        exact ⟨fun _ => id, any_eq_true.mp h, fun _ => Or.inl, id⟩
      · rename_i h
        refine ⟨subset_append_left _ _, ⟨operand, by simp, hoperand⟩, by simp, fun hmembers => ?_⟩
        refine pairwise_append.mpr ⟨hmembers, pairwise_singleton _ _, fun member hmember value hvalue => ?_⟩
        obtain rfl := mem_singleton.mp hvalue
        exact Bool.eq_false_iff.mpr fun heq => h (any_eq_true.mpr ⟨member, hmember, heq⟩)
    obtain ⟨hsub, ⟨found, hfound, heq⟩, honly, hdistinct⟩ := hpush
    refine ⟨fun _ h => hunion.left (hsub h), ?_, fun value hvalue => ?_, fun h => hunion.noDuplicates (hdistinct h)⟩
    · exact forall_mem_cons.mpr ⟨⟨found, hunion.left hfound, heq⟩, hunion.right⟩
    · rcases hunion.only value hvalue with h | h
      · exact (honly value h).imp_right fun heq : value = operand => heq ▸ mem_cons_self
      · exact Or.inr (mem_cons_of_mem _ h)

theorem foldl_pushMember_eq_self (h : ∀ value ∈ operands, HasMember members value) :
    operands.foldl pushMember members = members := by
  induction operands with
  | nil => rfl
  | cons operand operands ih =>
    obtain ⟨hoperand, h⟩ := forall_mem_cons.mp h
    rw [foldl_cons, pushMember_of_hasMember hoperand, ih h]

/-! ### Actions -/

theorem visibleObjectValue_insert {members : List Value} :
    visibleObjectValue (object.insert field (setValue marker members)) field = some (setValue marker members) :=
  visibleObjectValue_eq_some.mpr ⟨AList.lookup_insert _, nofun⟩

theorem isNumber_int (n : Int) : (Value.int n).isNumber = true := by
  cases n <;> rfl

theorem asI64_int {n : Int} (h : IsI64 n) : (Value.int n).asI64 = some n := by
  cases n <;> simp_all [Value.int, Value.asI64, Number.asInt, IsI64]
  omega

theorem applyAddAction_number {stored : Number} {operand : Value} (hoperand : operand.isNumber = true)
    (h : visibleObjectValue object field = some (.number stored)) :
    applyAddAction object field operand =
      (addNumericValues (.number stored) operand).map fun value => object.insert field value := by
  rw [applyAddAction, h]
  dsimp only
  rw [hoperand]
  rfl

section

variable {existing : Value} (hmarker : marker ∈ setMarkers) (hset : dynamodbSetMembers existing = some (marker, members))
  (h : visibleObjectValue object field = some existing)

include hmarker hset h

theorem applyAddAction_setValue :
    applyAddAction object field (setValue marker operands) =
      .ok (object.insert field (setValue marker (operands.foldl pushMember members))) := by
  have hnumber : (setValue marker operands).isNumber = false := rfl
  rw [applyAddAction, h]
  dsimp only
  rw [hnumber, Bool.and_false, unionSetValues, hset, dynamodbSetMembers_setValue hmarker]
  change Except.map _ (if marker ≠ marker then _ else _) = _
  rw [if_neg (not_not.mpr rfl)]
  rfl

theorem applyDeleteAction_setValue :
    applyDeleteAction object field (setValue marker operands) =
      let remaining := members.filter fun member => !operands.any fun candidate => candidate.jsonEq member
      .ok (if remaining = [] then object.erase field else object.insert field (setValue marker remaining)) := by
  rw [applyDeleteAction, h]
  dsimp only
  rw [subtractSetValues, hset, dynamodbSetMembers_setValue hmarker]
  change Except.map _ (if marker ≠ marker then _ else _) = _
  rw [if_neg (not_not.mpr rfl)]
  split <;> rfl

end

theorem setMembers_of_ok {existing : Value} (hmarker : marker ∈ setMarkers)
    (h : (∃ value, unionSetValues existing (setValue marker operands) = .ok value) ∨
      ∃ value, subtractSetValues existing (setValue marker operands) = .ok value) :
    ∃ members, dynamodbSetMembers existing = some (marker, members) := by
  rcases h with ⟨value, h⟩ | ⟨value, h⟩ <;>
  · obtain ⟨⟨other, members⟩, hset, h⟩ := exists_ok_of_bind h
    obtain ⟨operand, hoperand, h⟩ := exists_ok_of_bind h
    rw [dynamodbSetMembers_setValue hmarker] at hoperand
    cases hoperand
    dsimp only at h
    split at h
    · cases h
    · rename_i hsame
      exact ⟨members, not_not.mp hsame ▸ DynamoResult.ofOption_eq_ok.mp hset⟩

variable {object' : JsonMap}

theorem applyAddAction_again (hmarker : marker ∈ setMarkers) (hself : ∀ value ∈ operands, value.jsonEq value = true)
    (h : applyAddAction object field (setValue marker operands) = .ok object') :
    applyAddAction object' field (setValue marker operands) = .ok object' := by
  -- the attribute is a set by now that has every operand
  obtain ⟨union, rfl, hunion⟩ : ∃ union, object' = object.insert field (setValue marker union) ∧
      ∀ value ∈ operands, HasMember union value := by
    cases hvisible : visibleObjectValue object field with
    | none =>
      rw [applyAddAction, hvisible] at h
      exact ⟨operands, (ok.inj h).symm, fun value hvalue => ⟨value, hvalue, hself value hvalue⟩⟩
    | some existing =>
      have hok := h
      rw [applyAddAction, hvisible] at hok
      simp only [setValue, Value.isNumber, Bool.and_false, Bool.false_eq_true, if_false] at hok
      obtain ⟨value, hvalue, -⟩ := map_eq_ok.mp hok
      obtain ⟨members, hset⟩ := setMembers_of_ok hmarker (Or.inl ⟨value, hvalue⟩)
      rw [applyAddAction_setValue hmarker hset hvisible] at h
      exact ⟨_, (ok.inj h).symm, (isUnion_foldl_pushMember hself).right⟩
  rw [applyAddAction_setValue hmarker (dynamodbSetMembers_setValue hmarker) visibleObjectValue_insert,
    foldl_pushMember_eq_self hunion, AList.insert_insert]

theorem applyDeleteAction_again (hmarker : marker ∈ setMarkers)
    (h : applyDeleteAction object field (setValue marker operands) = .ok object') :
    applyDeleteAction object' field (setValue marker operands) = .ok object' := by
  cases hvisible : visibleObjectValue object field with
  | none =>
    have hok := h
    rw [applyDeleteAction, hvisible] at hok
    exact ok.inj hok ▸ h
  | some existing =>
    have hok := h
    rw [applyDeleteAction, hvisible] at hok
    obtain ⟨value, hvalue, -⟩ := map_eq_ok.mp hok
    obtain ⟨members, hset⟩ := setMembers_of_ok hmarker (Or.inr ⟨value, hvalue⟩)
    rw [applyDeleteAction_setValue hmarker hset hvisible] at h
    dsimp only at h
    split at h
    · cases h
      rw [applyDeleteAction, visibleObjectValue, AList.lookup_erase]
      rfl
    · rename_i hne
      cases h
      rw [applyDeleteAction_setValue hmarker (dynamodbSetMembers_setValue hmarker) visibleObjectValue_insert]
      dsimp only
      rw [filter_filter]
      simp only [Bool.and_self]
      rw [if_neg hne, AList.insert_insert]

/-! ### Sums -/

/-- The exact sum is stored, or nothing is. -/
def AddsExactly (object : JsonMap) (field : String) (operand : Value) (total : Int) : Prop :=
  (∃ e, applyAddAction object field operand = .error e) ∨
    ∃ sum : Number, sum.Is total ∧ applyAddAction object field operand = .ok (object.insert field (.number sum))

/-- Where a sum is exact: two integers of 64 bits have a sum of 64 bits; the summands of another sum and the
sum itself, rounded to doubles one after the other, give the sum. -/
def ExactSum (stored : Number) (s z : Int) : Prop :=
  if stored.asInt.isSome ∧ IsI64 s ∧ IsI64 z then IsI64 (s + z)
  else roundedInt (roundedInt s + roundedInt z) = s + z ∧ Dyadic.InF64Range (s + z)

section

variable {stored : Number} {s z : Int}

theorem addsExactly_iff_of_ok {operand value : Value} {total : Int}
    (hok : applyAddAction object field operand = .ok (object.insert field value)) :
    AddsExactly object field operand total ↔ ∃ sum : Number, sum.Is total ∧ value = .number sum := by
  rw [AddsExactly, hok]
  constructor
  · rintro (⟨e, he⟩ | ⟨sum, hsum, heq⟩)
    · cases he
    · have hlookup := congrArg (fun o : JsonMap => o.lookup field) (ok.inj heq)
      simp only [AList.lookup_insert, Option.some.injEq] at hlookup
      exact ⟨sum, hsum, hlookup⟩
  · rintro ⟨sum, hsum, rfl⟩
    exact Or.inr ⟨sum, hsum, rfl⟩

theorem exists_sum_iff {n : Number} {total : Int} :
    (∃ sum : Number, sum.Is total ∧ Value.number n = .number sum) ↔ n.Is total := by
  simp

theorem Number.is_int {n : Number} {z : Int} (h : .number n = Value.int z) (total : Int) : n.Is total ↔ z = total := by
  cases z with
  | ofNat z =>
    cases h
    rw [is_of_exp_nonneg le_rfl]
    simp [Number.exact, Dyadic.scaled]
  | negSucc z =>
    cases h
    rw [is_of_exp_nonneg le_rfl]
    simp [Number.exact, Dyadic.scaled, Int.negSucc_eq]

theorem Value.exists_int_eq_number (z : Int) : ∃ n, Value.int z = .number n := by
  cases z <;> exact ⟨_, rfl⟩

/-- The sum of two integers of 64 bits. -/
theorem addsExactly_i64 (hs : stored.asInt = some s) (hi64 : IsI64 s) (hz : IsI64 z)
    (h : visibleObjectValue object field = some (.number stored)) :
    AddsExactly object field (.int z) (s + z) ↔ IsI64 (s + z) := by
  have hstored : (Value.number stored).asI64 = some s := by
    rw [Value.asI64, hs]
    exact Option.filter_some_pos (decide_eq_true hi64)
  have hsum := applyAddAction_number (isNumber_int z) h
  rw [addNumericValues, hstored, asI64_int hz] at hsum
  have hwrap : (s + z).bmod (2 ^ 64) = s + z ↔ IsI64 (s + z) := by
    rw [Int.bmod_def, IsI64]
    omega
  rw [addsExactly_iff_of_ok hsum, ← hwrap]
  obtain ⟨sum, heq⟩ := Value.exists_int_eq_number ((s + z).bmod (2 ^ 64))
  rw [heq, exists_sum_iff, Number.is_int heq.symm]

/-- A sum of doubles. -/
theorem addsExactly_f64 {operand : Number} {rounded : Int} (hs : stored.Is s)
    (hoperand : 0 ≤ operand.asF64.exp ∧ operand.asF64.scaled 0 = rounded)
    (hpath : (Value.number stored).asI64 = none ∨ (Value.number operand).asI64 = none)
    (h : visibleObjectValue object field = some (.number stored)) (total : Int) :
    AddsExactly object field (.number operand) total ↔
      roundedInt (roundedInt s + rounded) = total ∧ Dyadic.InF64Range total := by
  have hsum : applyAddAction object field (.number operand) =
      .ok (object.insert field (jsonOfF64 (stored.asF64.add operand.asF64))) := by
    rw [applyAddAction_number rfl h, addNumericValues]
    rcases hpath with hpath | hpath <;> rw [hpath]
    · rfl
    · cases (Value.number stored).asI64 <;> rfl
  obtain ⟨hexp, hmant, hvalue⟩ := Dyadic.scaled_add (Number.asF64_of_is hs).1 hoperand.1
  rw [(Number.asF64_of_is hs).2, hoperand.2] at hvalue
  rw [addsExactly_iff_of_ok hsum, jsonOfF64, ← hvalue]
  rcases Dyadic.toF64?_cases hexp hmant with ⟨hrange, f, hf, hfexp, hfvalue⟩ | ⟨hrange, hnone⟩
  · have his : (Number.float f).Is total ↔ (stored.asF64.add operand.asF64).scaled 0 = total := by
      rw [← hfvalue]
      exact Number.is_of_exp_nonneg hfexp
    rw [hf, Option.map_some, Option.getD_some, exists_sum_iff, his]
    exact ⟨fun htotal => ⟨htotal, htotal ▸ hrange⟩, And.left⟩
  · rw [hnone]
    refine iff_of_false ?_ fun htotal => hrange (htotal.1 ▸ htotal.2)
    rintro ⟨_, -, heq⟩
    cases heq

/-- **A sum** of a stored integer and an integer that is accepted as a summand. -/
theorem addsExactly_iff {schema : PowdrrSchema} {keySchema : DynamoDbKeySchemaConfig} {text : String} {operand : Value}
    (hs : stored.Is s) (htext : WritesInt text z) (hparse : parseNumber text = some operand)
    (hcheck : checkUpdateAction schema keySchema (.add field operand) = .ok ())
    (h : visibleObjectValue object field = some (.number stored)) :
    AddsExactly object field operand (s + z) ↔ ExactSum stored s z := by
  unfold ExactSum
  rcases parseNumber_of_writesInt htext with ⟨hz, hint⟩ | ⟨hz, d, hexp, hmant, hvalue, hdouble⟩
  · obtain rfl := Option.some.inj (hparse.symm.trans hint)
    split
    · rename_i hboth
      have hasInt := (Number.asInt_of_is hs).resolve_right fun hnone => by simp [hnone] at hboth
      exact addsExactly_i64 hasInt hboth.2.1 hz h
    · rename_i hboth
      obtain ⟨n, hn⟩ := Value.exists_int_eq_number z
      rw [hn]
      refine addsExactly_f64 hs (Number.asF64_of_is ((Number.is_int hn.symm z).mpr rfl)) (Or.inl ?_) h _
      rw [Value.asI64]
      rcases Number.asInt_of_is hs with hasInt | hasInt
      · rw [hasInt]
        exact Option.filter_some_neg (by simpa using fun hlow hhigh => hboth ⟨by simp [hasInt], ⟨hlow, hhigh⟩, hz⟩)
      · rw [hasInt]
        rfl
  · obtain rfl := Option.some.inj (hparse.symm.trans hdouble)
    rw [if_neg fun hboth => hz hboth.2.2]
    rcases Dyadic.toF64?_cases hexp hmant with ⟨-, f, hf, hfexp, hfvalue⟩ | ⟨-, hnone⟩
    · rw [jsonOfF64, hf]
      have hasF64 : 0 ≤ (Number.float f).asF64.exp ∧ (Number.float f).asF64.scaled 0 = roundedInt z :=
        ⟨hfexp, hfvalue.trans hvalue⟩
      exact addsExactly_f64 hs hasF64 (Or.inr rfl) h _
    -- no double: the value is null, and null is no summand
    · rw [jsonOfF64, hnone] at hcheck
      obtain ⟨_, -, hcheck⟩ := exists_ok_of_bind hcheck
      cases hcheck

end

/-- **Updates.** For a stored integer and an integer that the expression parser accepts as a summand, the
exact sum is stored as `ExactSum` says. Sets are joined and taken apart as sets, and doing so again changes
nothing. -/
theorem updateArithmetic_iff (object : JsonMap) (field : String) :
    (∀ (stored : Number) (s z : Int) (text : String) (operand : Value) (schema : PowdrrSchema)
        (keySchema : DynamoDbKeySchemaConfig), stored.Is s → WritesInt text z →
      dynamodbAttrToJson (.object [("N", .string text)]) = .ok operand →
      checkUpdateAction schema keySchema (.add field operand) = .ok () →
      visibleObjectValue object field = some (.number stored) →
      (AddsExactly object field operand (s + z) ↔ ExactSum stored s z)) ∧
    ∀ marker ∈ setMarkers, ∀ operands : List Value, (∀ value ∈ operands, (Value.plainType value).isSome) →
      (∀ members, visibleObjectValue object field = some (setValue marker members) →
        (∃ union, IsUnion members operands union ∧
          applyAddAction object field (setValue marker operands) = .ok (object.insert field (setValue marker union))) ∧
        ∃ rest, (∀ value, value ∈ rest ↔ value ∈ members ∧ ¬ HasMember operands value) ∧
          applyDeleteAction object field (setValue marker operands) =
            .ok (if rest = [] then object.erase field else object.insert field (setValue marker rest))) ∧
      ∀ object', (applyAddAction object field (setValue marker operands) = .ok object' →
          applyAddAction object' field (setValue marker operands) = .ok object') ∧
        (applyDeleteAction object field (setValue marker operands) = .ok object' →
          applyDeleteAction object' field (setValue marker operands) = .ok object') := by
  refine ⟨fun stored s z text operand schema keySchema hs htext hattr hcheck h => ?_,
    fun marker hmarker operands hplain => ?_⟩
  · exact addsExactly_iff hs htext (DynamoResult.ofOption_eq_ok.mp hattr) hcheck h
  have hself : ∀ value ∈ operands, value.jsonEq value = true := fun value hvalue =>
    let ⟨_, htype⟩ := Option.isSome_iff_exists.mp (hplain value hvalue)
    Value.jsonEq_self_of_plainType htype
  refine ⟨fun members h => ⟨⟨_, isUnion_foldl_pushMember hself, ?_⟩, ?_⟩, fun object' => ⟨?_, ?_⟩⟩
  · exact applyAddAction_setValue hmarker (dynamodbSetMembers_setValue hmarker) h
  · refine ⟨_, fun value => ?_, applyDeleteAction_setValue hmarker (dynamodbSetMembers_setValue hmarker) h⟩
    rw [mem_filter, Bool.not_eq_true', ← Bool.not_eq_true, any_eq_true]
    rfl
  · exact applyAddAction_again hmarker hself
  · exact applyDeleteAction_again hmarker

/-- A counter and a set of tags. -/
def taggedCounter : JsonMap :=
  Dict.insertAll ∅ [("n", .int (2 ^ 63 - 1)), ("tags", setValue dynamodbStringSetMarker [.string "a"])]

def counterSchema (type : PowdrrDataType) : PowdrrSchema := ⟨[⟨"id", .string⟩, ⟨"n", type⟩]⟩

theorem writesInt_minusOne : WritesInt "-1" (-1) :=
  ⟨['-'], ['1'], rfl, cons_ne_nil _ _, forall_mem_singleton.mpr rfl, Or.inr ⟨rfl, rfl⟩⟩

theorem updateArithmetic_iff_tagged :
    (AddsExactly taggedCounter "n" (.int (-1)) (2 ^ 63 - 1 + -1) ↔ ExactSum (.posInt (2 ^ 63 - 1)) (2 ^ 63 - 1) (-1)) ∧
    ∃ union, IsUnion [.string "a"] [.string "b"] union ∧
      applyAddAction taggedCounter "tags" (setValue dynamodbStringSetMarker [.string "b"]) =
        .ok (taggedCounter.insert "tags" (setValue dynamodbStringSetMarker union)) :=
  ⟨(updateArithmetic_iff taggedCounter "n").1 (.posInt (2 ^ 63 - 1)) _ _ "-1" _ (counterSchema .integer) ⟨"id", none⟩
      ((Number.is_int rfl _).mpr rfl) writesInt_minusOne rfl rfl (by decide),
    (((updateArithmetic_iff taggedCounter "tags").2 _ (by decide) _ (by decide)).1 _ (by decide)).1⟩

/-- One more than the greatest `i64` is stored as the least one. In a column of doubles one more than `2 ^ 53`
is stored as `2 ^ 53`. The parser accepts both summands. -/
theorem applyAddAction_wraps :
    ((checkUpdateAction (counterSchema .integer) ⟨"id", none⟩ (.add "n" (.int 1))).isOk ∧
      (applyAddAction taggedCounter "n" (.int 1)).toOption.bind (·.lookup "n") = some (.int (-2 ^ 63))) ∧
    (checkUpdateAction (counterSchema .float) ⟨"id", none⟩ (.add "n" (.int 1))).isOk ∧
      (parseNumber "9007199254740992.0").bind (fun stored =>
        (applyAddAction (Dict.single "n" stored) "n" (.int 1)).toOption.bind (·.lookup "n")) =
      parseNumber "9007199254740992.0" := by
  decide +kernel

end PowdrrEngine
