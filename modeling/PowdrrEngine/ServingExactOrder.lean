import PowdrrEngine.ServingTopKBound

/-! The exact order of a column. SQL compares the values of a column of one type by value, so there the
order is total; with a literal of another number type it compares as doubles, which is coarser but never
turns two values around. -/

namespace PowdrrEngine

open Std Option Value

/-! ### Values without rounding -/

/-- The value of a number, without rounding. -/
def Number.exact : Number → Dyadic
  | .posInt n => ⟨false, n, 0⟩
  | .negInt n => ⟨true, n + 1, 0⟩
  | .float f => f.toDyadic

def Value.exactKey : Value → Dyadic
  | .number n => n.exact
  | _ => ⟨false, 0, 0⟩

/-- The order of a column by value; null comes last. -/
def exactOrder (left right : Value) : Ordering :=
  (compare left.rank right.rank).then ((left.exactKey.cmp right.exactKey).then
    ((compare left.stringKey right.stringKey).then (compare left.boolKey right.boolKey)))

instance : Std.TransCmp exactOrder := transCmp_byKeys exactKey

theorem Number.cmp_exact_of_asInt {a b : Number} {x y : Int} (ha : a.asInt = some x) (hb : b.asInt = some y) :
    a.exact.cmp b.exact = compare x y := by
  have hscaled : ∀ {n : Number} {z : Int}, n.asInt = some z → n.exact.exp = 0 ∧ n.exact.scaled 0 = z := by
    intro n z h
    cases n with
    | posInt n | negInt n =>
      cases h
      simp [Number.exact, Dyadic.scaled]
    | float f => cases h
  obtain ⟨hae, has⟩ := hscaled ha
  obtain ⟨hbe, hbs⟩ := hscaled hb
  rw [Dyadic.cmp_eq_compare_scaled hae.ge hbe.ge, has, hbs]

theorem Number.eq_of_asInt {n m : Number} {z : Int} (hn : n.asInt = some z) (hm : m.asInt = some z) : n = m := by
  cases n <;> cases m <;> simp only [Number.asInt, some.injEq, reduceCtorEq] at hn hm
  · rw [Number.posInt.injEq]
    omega
  · omega
  · omega
  · rw [Number.negInt.injEq]
    omega

theorem Number.asInt_eq_iff {a b : Number} {x y : Int} (ha : a.asInt = some x) (hb : b.asInt = some y) :
    x = y ↔ a = b := by
  constructor
  · rintro rfl
    exact eq_of_asInt ha hb
  · rintro rfl
    exact some.inj (ha.symm.trans hb)

/-! ### Columns of one type -/

/-- The types that a column of scalars may have. -/
inductive ScalarType where
  | boolean
  | integer
  | double
  | string

def ScalarType.has : ScalarType → Value → Bool
  | .boolean, .bool _ | .string, .string _ | .double, .number (.float _) => true
  | .integer, .number (.posInt _) | .integer, .number (.negInt _) => true
  | _, _ => false

/-- What a column of a type may hold. -/
def ScalarType.holds (type : ScalarType) (value : Value) : Prop := value = .null ∨ type.has value = true

section

variable {type : ScalarType} {a b c : Value}

theorem ScalarType.ne_null (h : type.has a = true) : a ≠ .null := by
  rintro rfl
  cases type <;> cases h

/-- **SQL compares the values of a column exactly.** -/
theorem sqlCompare_of_has (ha : type.has a = true) (hb : type.has b = true) :
    sqlCompare a b = some (exactOrder a b) := by
  have hint : ∀ {n m : Number} {x y : Int}, n.asInt = some x → m.asInt = some y →
      sqlCompareNumbers n m = n.exact.cmp m.exact := by
    intro n m x y hn hm
    rw [Number.cmp_exact_of_asInt hn hm, sqlCompareNumbers, hn, hm]
  cases type with
  | boolean =>
    cases a <;> cases ha
    cases b <;> cases hb
    simp [sqlCompare, exactOrder, rank, exactKey, stringKey, boolKey, Dyadic.cmp]
  | string =>
    cases a <;> cases ha
    cases b <;> cases hb
    simp [sqlCompare, exactOrder, rank, exactKey, stringKey, boolKey, Dyadic.cmp]
  | double =>
    cases a with
    | number n =>
      cases n <;> cases ha
      cases b with
      | number m =>
        cases m <;> cases hb
        simp [sqlCompare, sqlCompareNumbers, Number.asInt, Number.asF64, Number.exact, exactOrder,
          rank, exactKey, stringKey, boolKey]
      | null | bool _ | string _ | array _ | object _ => cases hb
    | null | bool _ | string _ | array _ | object _ => cases ha
  | integer =>
    cases a with
    | number n =>
      cases b with
      | number m =>
        have hn : ∃ x, n.asInt = some x := by cases n <;> first | exact ⟨_, rfl⟩ | cases ha
        have hm : ∃ y, m.asInt = some y := by cases m <;> first | exact ⟨_, rfl⟩ | cases hb
        simp [sqlCompare, hint hn.choose_spec hm.choose_spec, exactOrder, rank, exactKey,
          stringKey, boolKey]
      | null | bool _ | string _ | array _ | object _ => cases hb
    | null | bool _ | string _ | array _ | object _ => cases ha

theorem nullLast_exactOrder : NullLast exactOrder := nullLast_byRank (by decide)

theorem sqlOrder_of_holds {a b : Option Value} (ha : type.holds (a.getD .null)) (hb : type.holds (b.getD .null))
    (descending : Bool) :
    sqlOrder a b descending = if descending then exactOrder (b.getD .null) (a.getD .null)
      else exactOrder (a.getD .null) (b.getD .null) := by
  have hascending : sqlOrder a b false = exactOrder (a.getD .null) (b.getD .null) :=
    sqlOrder_eq nullLast_exactOrder fun hleft hright =>
      sqlCompare_of_has (ha.resolve_left hleft) (hb.resolve_left hright)
  cases descending with
  | false => exact hascending
  | true =>
    have hswap : sqlOrder a b true = (sqlOrder a b false).swap := rfl
    rw [hswap, hascending, if_pos rfl]
    exact (OrientedCmp.eq_swap).symm

theorem ScalarType.kind (type : ScalarType) :
    ∃ kind : ColumnKind, ∀ value, type.has value = true → kind.has value = true := by
  cases type with
  | boolean => exact ⟨.boolean, fun value h => by cases value <;> first | rfl | cases h⟩
  | string => exact ⟨.string, fun value h => by cases value <;> first | rfl | cases h⟩
  | integer => exact ⟨.number, fun value h => by cases value <;> first | rfl | cases h⟩
  | double => exact ⟨.number, fun value h => by cases value <;> first | rfl | cases h⟩

end

/-- The order of rows by the value of a sort key, without rounding. -/
def sortKeyOrder (sort : ReadSort) (left right : ServingRow) : Ordering :=
  if sort.descending then exactOrder (sortKey sort.field right) (sortKey sort.field left)
  else exactOrder (sortKey sort.field left) (sortKey sort.field right)

instance (sort : ReadSort) : Std.TransCmp (sortKeyOrder sort) := by
  have horder := transCmp_on (sortKey sort.field) exactOrder
  unfold sortKeyOrder
  cases sort.descending with
  | false => exact horder
  | true => exact horder.opposite

end PowdrrEngine
