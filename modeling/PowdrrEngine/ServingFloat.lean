import PowdrrEngine.ServingPlan

/-! Sums of doubles: the exact sum rounded to 53 bits, ties to even. The exponent has no bounds here until
the result is named as a double. -/

namespace PowdrrEngine

namespace Dyadic

/-- The value with a mantissa of 53 bits. -/
def round53 (d : Dyadic) : Dyadic := ⟨d.neg, (roundNat d.mant).mant, d.exp + (roundNat d.mant).exp⟩

def ofInt (n : Int) : Dyadic := ⟨n < 0, n.natAbs, 0⟩

def add (a b : Dyadic) : Dyadic :=
  let e := min a.exp b.exp
  let n := a.scaled e + b.scaled e
  round53 ⟨n < 0, n.natAbs, e⟩

/-- An even mantissa is halved, a number of times at most. -/
def halve : Nat → Dyadic → Dyadic
  | 0, d => d
  | n + 1, d => if d.mant % 2 = 0 then halve n ⟨d.neg, d.mant / 2, d.exp + 1⟩ else d

/-- The form that names a double; none beyond the range of doubles. -/
def toF64? (d : Dyadic) : Option F64 :=
  let d := if d.mant = 0 then ⟨d.neg, 0, 0⟩ else halve d.mant.log2 d
  if h : d.mant = 0 ∧ d.exp = 0 ∨
      d.mant % 2 = 1 ∧ d.mant < 2 ^ 53 ∧ -1074 ≤ d.exp ∧ (Nat.log2 d.mant : Int) + d.exp < 1024 then
    some ⟨d, h⟩
  else none

end Dyadic

def valueAsF64 : Value → Option Dyadic
  | .number n => some n.asF64
  | _ => none

-- 2^53 + 1 loses its last bit
example : (Dyadic.add (.ofInt 9007199254740992) (.ofInt 1)).toF64? = Dyadic.toF64? (.ofInt 9007199254740992) := by
  decide

theorem scaled_ofInt (n : Int) : (Dyadic.ofInt n).scaled 0 = n := by
  unfold Dyadic.ofInt Dyadic.scaled
  by_cases h : n < 0
  · simp [h, abs_of_neg h]
  · simp [h, abs_of_nonneg (not_lt.mp h)]

end PowdrrEngine
