import Mathlib.Data.Nat.Log
import Mathlib.Order.Compare
import Mathlib.Tactic.Ring
import Mathlib.Tactic.Positivity

/-! JSON values as the engine's `serde_json::Value`: numbers keep whether they were written as an
unsigned integer, a negative integer or a double, objects are lists of members. Comparisons of
numbers go through `as_f64`, which rounds a wide integer to the nearest double, ties to even. -/

namespace PowdrrEngine

/-- The value `± mant * 2 ^ exp`. -/
structure Dyadic where
  neg : Bool
  mant : Nat
  exp : Int
  deriving DecidableEq, Repr

namespace Dyadic

/-- The mantissa with its sign, scaled to the exponent `e`; meaningful for `e ≤ exp`. -/
def scaled (d : Dyadic) (e : Int) : Int := (if d.neg then -1 else 1) * (d.mant * 2 ^ (d.exp - e).toNat : Nat)

/-- The order of the values; the two zeros are equal. -/
def cmp (a b : Dyadic) : Ordering :=
  let e := min a.exp b.exp
  compare (a.scaled e) (b.scaled e)

/-- The double nearest to a natural number, ties to an even mantissa. -/
def roundNat (n : Nat) : Dyadic :=
  let bits := Nat.log2 n + 1
  if bits ≤ 53 then ⟨false, n, 0⟩
  else
    let shift := bits - 53
    let quotient := n / 2 ^ shift
    let remainder := n % 2 ^ shift
    let half := 2 ^ (shift - 1)
    if half < remainder ∨ (remainder = half ∧ quotient % 2 = 1) then ⟨false, quotient + 1, shift⟩
    else ⟨false, quotient, shift⟩

/-! The order is the order of the scaled mantissas at any exponent low enough for both sides. -/

theorem scaled_eq_mul (d : Dyadic) {e e' : Int} (he : e' ≤ e) (hd : e ≤ d.exp) :
    d.scaled e' = d.scaled e * 2 ^ (e - e').toNat := by
  have hsplit : (d.exp - e').toNat = (d.exp - e).toNat + (e - e').toNat := by omega
  unfold scaled
  rw [hsplit, pow_add]
  push_cast
  ring

theorem compare_mul_pow (x y : Int) (k : Nat) : compare (x * 2 ^ k) (y * 2 ^ k) = compare x y := by
  have hpos : (0 : Int) < 2 ^ k := by positivity
  rcases lt_trichotomy x y with h | h | h
  · rw [compare_lt_iff_lt.mpr h, compare_lt_iff_lt]
    exact Int.mul_lt_mul_of_pos_right h hpos
  · rw [h, compare_eq_iff_eq.mpr rfl, compare_eq_iff_eq.mpr rfl]
  · rw [compare_gt_iff_gt.mpr h, compare_gt_iff_gt]
    exact Int.mul_lt_mul_of_pos_right h hpos

theorem cmp_eq_compare_scaled {a b : Dyadic} {e : Int} (ha : e ≤ a.exp) (hb : e ≤ b.exp) :
    a.cmp b = compare (a.scaled e) (b.scaled e) := by
  have he : e ≤ min a.exp b.exp := le_min ha hb
  rw [scaled_eq_mul a he (min_le_left _ _), scaled_eq_mul b he (min_le_right _ _), compare_mul_pow]
  rfl

instance : Std.TransCmp cmp where
  eq_swap := by
    intro a b
    rw [cmp_eq_compare_scaled (min_le_left a.exp b.exp) (min_le_right a.exp b.exp),
      cmp_eq_compare_scaled (min_le_right a.exp b.exp) (min_le_left a.exp b.exp)]
    exact Std.OrientedCmp.eq_swap
  isLE_trans := by
    intro a b c hab hbc
    have ha : min a.exp (min b.exp c.exp) ≤ a.exp := min_le_left _ _
    have hb : min a.exp (min b.exp c.exp) ≤ b.exp := (min_le_right _ _).trans (min_le_left _ _)
    have hc : min a.exp (min b.exp c.exp) ≤ c.exp := (min_le_right _ _).trans (min_le_right _ _)
    rw [cmp_eq_compare_scaled ha hb] at hab
    rw [cmp_eq_compare_scaled hb hc] at hbc
    rw [cmp_eq_compare_scaled ha hc]
    exact Std.TransCmp.isLE_trans hab hbc

end Dyadic

/-- A finite double in the one form that names it: an odd mantissa of at most 53 bits, or zero. -/
structure F64 extends Dyadic where
  normal : mant = 0 ∧ exp = 0 ∨ mant % 2 = 1 ∧ mant < 2 ^ 53 ∧ -1074 ≤ exp ∧ (Nat.log2 mant : Int) + exp < 1024
  deriving DecidableEq

/-- `serde_json::Number`; `negInt n` is the number `-(n + 1)`. -/
inductive Number where
  | posInt (n : Nat)
  | negInt (n : Nat)
  | float (f : F64)
  deriving DecidableEq

def Number.asF64 : Number → Dyadic
  | .posInt n => Dyadic.roundNat n
  | .negInt n => { Dyadic.roundNat (n + 1) with neg := true }
  | .float f => f.toDyadic

inductive Value where
  | null
  | bool (b : Bool)
  | number (n : Number)
  | string (s : String)
  | array (items : List Value)
  | object (members : List (String × Value))

namespace Value

mutual

def decEq : (a b : Value) → Decidable (a = b)
  | .null, .null => isTrue rfl
  | .bool a, .bool b => decidable_of_iff (a = b) (by simp)
  | .number a, .number b => decidable_of_iff (a = b) (by simp)
  | .string a, .string b => decidable_of_iff (a = b) (by simp)
  | .array a, .array b =>
    have := decEqItems a b
    decidable_of_iff (a = b) (by simp)
  | .object a, .object b =>
    have := decEqMembers a b
    decidable_of_iff (a = b) (by simp)
  | .null, .bool _ | .null, .number _ | .null, .string _ | .null, .array _ | .null, .object _
  | .bool _, .null | .bool _, .number _ | .bool _, .string _ | .bool _, .array _ | .bool _, .object _
  | .number _, .null | .number _, .bool _ | .number _, .string _ | .number _, .array _
  | .number _, .object _
  | .string _, .null | .string _, .bool _ | .string _, .number _ | .string _, .array _
  | .string _, .object _
  | .array _, .null | .array _, .bool _ | .array _, .number _ | .array _, .string _
  | .array _, .object _
  | .object _, .null | .object _, .bool _ | .object _, .number _ | .object _, .string _
  | .object _, .array _ => isFalse nofun
termination_by structural a => a

def decEqItems : (a b : List Value) → Decidable (a = b)
  | [], [] => isTrue rfl
  | [], _ :: _ | _ :: _, [] => isFalse nofun
  | a :: as, b :: bs =>
    have := decEq a b
    have := decEqItems as bs
    decidable_of_iff (a = b ∧ as = bs) (by simp)
termination_by structural a => a

def decEqMembers : (a b : List (String × Value)) → Decidable (a = b)
  | [], [] => isTrue rfl
  | [], _ :: _ | _ :: _, [] => isFalse nofun
  | a :: as, b :: bs =>
    have := decEqMember a b
    have := decEqMembers as bs
    decidable_of_iff (a = b ∧ as = bs) (by simp)
termination_by structural a => a

def decEqMember : (a b : String × Value) → Decidable (a = b)
  | (k, a), (l, b) =>
    have := decEq a b
    decidable_of_iff (k = l ∧ a = b) (by simp)
termination_by structural a => a

end

instance : DecidableEq Value := decEq

def get (v : Value) (key : String) : Option Value :=
  match v with
  | .object members => (members.find? fun m => m.1 = key).map Prod.snd
  | _ => none

/-- An integer as a JSON number. -/
def int : Int → Value
  | .ofNat n => .number (.posInt n)
  | .negSucc n => .number (.negInt n)

end Value

/-- `compare_scalar_values`: defined for two numbers, two strings or two Booleans. -/
def compareScalarValues : Value → Value → Option Ordering
  | .number left, .number right => some (left.asF64.cmp right.asF64)
  | .string left, .string right => some (compare left right)
  | .bool left, .bool right => some (compare left right)
  | _, _ => none

theorem compareScalarValues_swap (left right : Value) :
    compareScalarValues right left = (compareScalarValues left right).map Ordering.swap := by
  cases left <;> cases right <;> try rfl
  all_goals exact congrArg some Std.OrientedCmp.eq_swap

-- 2^53 and 2^53 + 1 are one double.
example : compareScalarValues (.int 9007199254740992) (.int 9007199254740993) = some .eq := by decide
example : compareScalarValues (.int (-3)) (.int 2) = some .lt := by decide
example : compareScalarValues (.string "ab") (.string "b") = some .lt := by decide

end PowdrrEngine
