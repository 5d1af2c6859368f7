import Mathlib.Data.List.TakeWhile
import PowdrrEngine.DynamoItem
import PowdrrEngine.ServingExactOrder

/-! Integers in the two forms that numbers have here. A text of digits is read as an `i64` where it is one,
otherwise as the nearest double, and a sum of doubles is the exact sum rounded once more. -/

namespace PowdrrEngine

open List

namespace Dyadic

theorem log2_mul_two_pow {n : Nat} (hn : n ≠ 0) (k : Nat) : (n * 2 ^ k).log2 = n.log2 + k := by
  induction k with
  | zero => simp
  | succ k ih => rw [pow_succ, ← mul_assoc, mul_comm _ 2, Nat.log2_two_mul (by positivity), ih, add_assoc]

theorem roundUp_zero {q half : Nat} (h : 0 < half) : roundUp q 0 half = q := by
  unfold roundUp
  rw [if_neg (by omega)]

theorem roundUp_mul (q r half k : Nat) : roundUp q (r * 2 ^ k) (half * 2 ^ k) = roundUp q r half := by
  have hpos : 0 < 2 ^ k := by positivity
  unfold roundUp
  simp only [Nat.mul_lt_mul_right hpos, Nat.mul_left_inj hpos.ne']

/-- Rounding goes along with a power of two. -/
theorem rounded_mul_two_pow (n k : Nat) : rounded (n * 2 ^ k) = rounded n * 2 ^ k := by
  rcases Nat.eq_zero_or_pos n with rfl | hpos
  · simp [rounded_of_le]
  have hlog := log2_mul_two_pow hpos.ne' k
  by_cases hsmall : n.log2 < 53
  · rw [rounded_of_log2_lt hsmall]
    by_cases hfits : n.log2 + k < 53
    · rw [rounded_of_log2_lt (hlog ▸ hfits)]
    -- the bits that are cut off are zeros of the power
    obtain ⟨more, hk⟩ : ∃ more, k = more + (n.log2 + k - 52) := ⟨52 - n.log2, by omega⟩
    rw [rounded_of_le_log2 (by omega), hlog]
    have hsplit : n * 2 ^ k = n * 2 ^ more * 2 ^ (n.log2 + k - 52) := by
      rw [mul_assoc, ← pow_add, ← hk]
    rw [hsplit, Nat.mul_div_left _ (by positivity), Nat.mul_mod_left, roundUp_zero (by positivity)]
  · have hshift : n.log2 + k - 52 = n.log2 - 52 + k := by omega
    have hhalf : n.log2 + k - 53 = n.log2 - 53 + k := by omega
    rw [rounded_of_le_log2 (by omega), rounded_of_le_log2 (by omega : 53 ≤ n.log2), hlog, hshift, hhalf, pow_add,
      pow_add, Nat.mul_div_mul_right _ _ (by positivity), Nat.mul_mod_mul_right, roundUp_mul, mul_assoc]

theorem quotient_lt (n : Nat) : n / 2 ^ (n.log2 - 52) < 2 ^ 53 := by
  rw [Nat.div_lt_iff_lt_mul (by positivity), ← pow_add]
  exact Nat.lt_log2_self.trans_le (Nat.pow_le_pow_right (by decide) (by omega))

theorem mant_roundNat_le (n : Nat) : (roundNat n).mant ≤ 2 ^ 53 := by
  unfold roundNat
  dsimp only
  split
  · rename_i hbits
    exact Nat.lt_log2_self.le.trans (Nat.pow_le_pow_right (by decide) hbits)
  · have hshift : n.log2 + 1 - 53 = n.log2 - 52 := by omega
    rw [hshift]
    split
    · exact quotient_lt n
    · exact (quotient_lt n).le

end Dyadic

theorem roundedInt_neg (n : Nat) : roundedInt (-n) = -Dyadic.rounded n := by
  cases n with
  | zero => rfl
  | succ n => rfl

namespace Dyadic

/-- The value of an integer with its sign. -/
def signed (neg : Bool) (n : Nat) : Int := if neg then -n else n

theorem scaled_zero (d : Dyadic) : d.scaled 0 = signed d.neg (d.mant * 2 ^ d.exp.toNat) := by
  unfold scaled signed
  rw [sub_zero]
  split <;> simp

theorem roundedInt_signed (neg : Bool) (n : Nat) : roundedInt (signed neg n) = signed neg (rounded n) := by
  cases neg with
  | false => rfl
  | true => exact roundedInt_neg n

theorem exp_round53_nonneg {d : Dyadic} (h : 0 ≤ d.exp) : 0 ≤ (round53 d).exp :=
  add_nonneg h (roundNat_exp_nonneg d.mant)

theorem scaled_round53 {d : Dyadic} (h : 0 ≤ d.exp) : (round53 d).scaled 0 = roundedInt (d.scaled 0) := by
  rw [scaled_zero, scaled_zero, roundedInt_signed, rounded_mul_two_pow, rounded]
  change signed d.neg ((roundNat d.mant).mant * 2 ^ (d.exp + (roundNat d.mant).exp).toNat) = _
  rw [Int.toNat_add h (roundNat_exp_nonneg _), pow_add]
  congr 1
  ring

theorem natAbs_signed (neg : Bool) (n : Nat) : (signed neg n).natAbs = n := by
  cases neg <;> simp [signed]

theorem signed_natAbs_mul (z : Int) (k : Nat) : signed (z < 0) (z.natAbs * 2 ^ k) = z * 2 ^ k := by
  unfold signed
  by_cases h : z < 0
  · simp [h, abs_of_neg h]
  · simp [h, abs_of_nonneg (not_lt.mp h)]

/-- **A sum of doubles** is the exact sum, rounded. -/
theorem scaled_add {a b : Dyadic} (ha : 0 ≤ a.exp) (hb : 0 ≤ b.exp) :
    0 ≤ (add a b).exp ∧ (add a b).mant ≤ 2 ^ 53 ∧ (add a b).scaled 0 = roundedInt (a.scaled 0 + b.scaled 0) := by
  have he : 0 ≤ min a.exp b.exp := le_min ha hb
  refine ⟨exp_round53_nonneg he, mant_roundNat_le _, ?_⟩
  rw [add, scaled_round53 he, scaled_eq_mul a he (min_le_left _ _), scaled_eq_mul b he (min_le_right _ _), ← add_mul,
    scaled_zero, sub_zero]
  congr 1
  exact signed_natAbs_mul _ _

/-- The exponent of an even mantissa goes up; the value and the number of bits in front of it stay. -/
theorem halve_spec (n : Nat) {d : Dyadic} (hexp : 0 ≤ d.exp) (hmant : d.mant ≠ 0) :
    0 ≤ (halve n d).exp ∧ (halve n d).mant ≠ 0 ∧ (halve n d).mant ≤ d.mant ∧ (halve n d).neg = d.neg ∧
      (halve n d).mant * 2 ^ (halve n d).exp.toNat = d.mant * 2 ^ d.exp.toNat ∧
      (d.mant < 2 ^ (n + 1) → (halve n d).mant % 2 = 1) := by
  induction n generalizing d with
  | zero => 
    refine ⟨hexp, hmant, le_rfl, rfl, rfl, fun h => ?_⟩
    change d.mant % 2 = 1
    omega
  | succ n ih =>
    rw [halve]
    split
    · rename_i heven
      have hhalf : d.mant / 2 ≠ 0 := by omega
      have hexp' : 0 ≤ d.exp + 1 := by omega
      obtain ⟨hexp'', hne, hle, hneg, hvalue, hodd⟩ := ih (d := ⟨d.neg, d.mant / 2, d.exp + 1⟩) hexp' hhalf
      refine ⟨hexp'', hne, hle.trans (Nat.div_le_self _ _), hneg, hvalue.trans ?_, fun h => hodd ?_⟩
      · have hdouble : d.mant = d.mant / 2 * 2 := by omega
        change d.mant / 2 * 2 ^ (d.exp + 1).toNat = _
        rw [Int.toNat_add hexp (by decide), pow_add, Int.toNat_one, pow_one]
        conv_rhs => rw [hdouble]
        ring
      · change d.mant / 2 < 2 ^ (n + 1)
        rw [pow_succ] at h
        omega
    · exact ⟨hexp, hmant, le_rfl, rfl, rfl, fun _ => by omega⟩

/-- Doubles end at `2 ^ 1024`. -/
def InF64Range (n : Int) : Prop := n.natAbs.log2 < 1024

/-- **The double of an integer value** of at most 53 bits: there is one in the range, and it has the value. -/
theorem toF64?_cases {d : Dyadic} (hexp : 0 ≤ d.exp) (hmant : d.mant ≤ 2 ^ 53) :
    (InF64Range (d.scaled 0) ∧ ∃ f : F64, d.toF64? = some f ∧ 0 ≤ f.exp ∧ f.scaled 0 = d.scaled 0) ∨
      (¬ InF64Range (d.scaled 0) ∧ d.toF64? = none) := by
  rw [InF64Range, scaled_zero d, natAbs_signed]
  by_cases hzero : d.mant = 0
  · refine Or.inl ⟨by simp [hzero], ⟨⟨d.neg, 0, 0⟩, Or.inl ⟨rfl, rfl⟩⟩, by simp [toF64?, hzero], le_rfl, ?_⟩
    simp [scaled_zero, hzero]
  obtain ⟨hexp', hne, hle, hneg, hvalue, hodd⟩ := halve_spec d.mant.log2 hexp hzero
  have hodd : (halve d.mant.log2 d).mant % 2 = 1 := hodd Nat.lt_log2_self
  have hlt : (halve d.mant.log2 d).mant < 2 ^ 53 := by omega
  have hlog : (d.mant * 2 ^ d.exp.toNat).log2 < 1024 ↔
      ((halve d.mant.log2 d).mant.log2 : Int) + (halve d.mant.log2 d).exp < 1024 := by
    rw [← hvalue, log2_mul_two_pow hne]
    omega
  unfold toF64?
  rw [if_neg hzero]
  by_cases hrange : (d.mant * 2 ^ d.exp.toNat).log2 < 1024
  · refine Or.inl ⟨hrange, _, dif_pos (Or.inr ⟨hodd, hlt, by omega, hlog.mp hrange⟩), hexp', ?_⟩
    rw [scaled_zero, hneg, hvalue]
  · refine Or.inr ⟨hrange, dif_neg ?_⟩
    rintro (⟨h, -⟩ | ⟨-, -, -, h⟩)
    · exact hne h
    · exact hrange (hlog.mpr h)

/-- The double that a text of digits is read as. -/
theorem ofDecimal_zero (neg : Bool) (n : Nat) : ∃ d : Dyadic, 0 ≤ d.exp ∧ d.mant ≤ 2 ^ 53 ∧
    d.scaled 0 = roundedInt (signed neg n) ∧ ofDecimal neg n 0 = d.toF64? := by
  have hvalue : ofDecimal neg n 0 = nearestF64 neg n 0 := by simp [ofDecimal]
  rw [hvalue, roundedInt_signed, nearestF64]
  dsimp only
  split
  · rename_i hunit
    have hlog : n.log2 < 53 := by omega
    refine ⟨⟨neg, n, 0⟩, le_rfl, ?_, ?_, rfl⟩
    · rcases Nat.eq_zero_or_pos n with rfl | hpos
      · exact Nat.zero_le _
      · exact ((Nat.log2_lt hpos.ne').mp hlog).le
    · rw [scaled_zero, rounded_of_log2_lt hlog]
      simp
  · rename_i hunit
    have hmax : max (0 + (n.log2 : Int) - 52) (-1074) = (n.log2 - 52 : Nat) := by omega
    have hhalf : n.log2 - 52 - 1 = n.log2 - 53 := by omega
    rw [hmax, sub_zero, Int.toNat_natCast, hhalf]
    refine ⟨_, Int.natCast_nonneg _, ?_, ?_, rfl⟩
    · exact (roundUp_le _ _ _).trans (quotient_lt n)
    · rw [scaled_zero, rounded_of_le_log2 (by omega)]
      rfl

end Dyadic

/-! ### Numbers that are integers -/

/-- The number is the integer, in whichever form it is kept. -/
def Number.Is (n : Number) (z : Int) : Prop := n.exact.cmp (.ofInt z) = .eq

theorem Number.is_of_exp_nonneg {n : Number} {z : Int} (h : 0 ≤ n.exact.exp) : n.Is z ↔ n.exact.scaled 0 = z := by
  rw [Number.Is, Dyadic.cmp_eq_compare_scaled h (le_refl 0 : (0 : Int) ≤ (Dyadic.ofInt z).exp), scaled_ofInt,
    compare_eq_iff_eq]

/-- A double with a negative exponent is no integer, its mantissa is odd. -/
theorem Number.exp_nonneg_of_is {n : Number} {z : Int} (h : n.Is z) : 0 ≤ n.exact.exp := by
  cases n with
  | posInt n | negInt n => exact le_rfl
  | float f =>
    by_contra hexp
    have hexp : f.exp < 0 := not_le.mp hexp
    have hodd : f.mant % 2 = 1 := by
      rcases f.normal with ⟨-, hzero⟩ | ⟨hodd, -⟩
      · omega
      · exact hodd
    have hcmp : f.toDyadic.cmp (.ofInt z) = .eq := h
    rw [Dyadic.cmp_eq_compare_scaled (le_refl f.exp) (by exact hexp.le), compare_eq_iff_eq,
      Dyadic.scaled_eq_mul (.ofInt z) hexp.le (by exact le_rfl), scaled_ofInt] at hcmp
    obtain ⟨k, hk⟩ : ∃ k, (0 - f.exp).toNat = k + 1 := ⟨(0 - f.exp).toNat - 1, by omega⟩
    rw [hk, pow_succ, ← mul_assoc, Dyadic.scaled, sub_self] at hcmp
    generalize z * 2 ^ k = w at hcmp
    split at hcmp <;> simp at hcmp <;> omega

theorem Number.asInt_of_is {n : Number} {z : Int} (h : n.Is z) : n.asInt = some z ∨ n.asInt = none := by
  have hvalue := (is_of_exp_nonneg (exp_nonneg_of_is h)).mp h
  cases n with
  | posInt n | negInt n =>
    refine Or.inl ?_
    rw [← hvalue]
    simp [Number.asInt, Number.exact, Dyadic.scaled]
  | float f => exact Or.inr rfl

/-- An integer as a double: itself if it is kept as one, otherwise the nearest. -/
theorem Number.asF64_of_is {n : Number} {z : Int} (h : n.Is z) :
    0 ≤ n.asF64.exp ∧ n.asF64.scaled 0 = roundedInt z := by
  rcases asInt_of_is h with hint | hfloat
  · exact asF64_of_asInt hint
  · cases n with
    | posInt n | negInt n => cases hfloat
    | float f =>
      have hexp : 0 ≤ f.exp := exp_nonneg_of_is h
      have hvalue : f.scaled 0 = z := (is_of_exp_nonneg (exp_nonneg_of_is h)).mp h
      have hmant : f.mant < 2 ^ 53 := by
        rcases f.normal with ⟨hzero, -⟩ | ⟨-, hlt, -⟩
        · omega
        · exact hlt
      refine ⟨hexp, ?_⟩
      rw [← hvalue]
      change f.scaled 0 = _
      rw [Dyadic.scaled_zero, Dyadic.roundedInt_signed, Dyadic.rounded_mul_two_pow, Dyadic.rounded_of_le hmant.le]

/-! ### Texts of integers -/

def IsI64 (n : Int) : Prop := -2 ^ 63 ≤ n ∧ n < 2 ^ 63

instance (n : Int) : Decidable (IsI64 n) := inferInstanceAs (Decidable (_ ∧ _))

/-- A text of digits, perhaps behind a sign, and the integer it writes. -/
def WritesInt (text : String) (z : Int) : Prop :=
  ∃ sign digits : List Char, text.toList = sign ++ digits ∧ digits ≠ [] ∧ (∀ c ∈ digits, c.isDigit = true) ∧
    ((sign = [] ∨ sign = ['+']) ∧ z = Nat.ofDigitChars 10 digits 0 ∨
      sign = ['-'] ∧ z = -Nat.ofDigitChars 10 digits 0)

section

variable {digits : List Char} {text : String} {z : Int}

theorem splitSign_of_writesInt (h : WritesInt text z) : ∃ neg digits, splitSign text.toList = (neg, digits) ∧
    digits ≠ [] ∧ (∀ c ∈ digits, c.isDigit = true) ∧ z = Dyadic.signed neg (Nat.ofDigitChars 10 digits 0) := by
  obtain ⟨sign, digits, htext, hne, hdigits, ⟨rfl | rfl, rfl⟩ | ⟨rfl, rfl⟩⟩ := h
  · refine ⟨false, digits, ?_, hne, hdigits, rfl⟩
    rw [htext, nil_append]
    unfold splitSign
    split
    · exact absurd (hdigits _ mem_cons_self) (by decide)
    · exact absurd (hdigits _ mem_cons_self) (by decide)
    · rfl
  · exact ⟨false, digits, by rw [htext]; rfl, hne, hdigits, rfl⟩
  · exact ⟨true, digits, by rw [htext]; rfl, hne, hdigits, rfl⟩

theorem parseDigits_of_digits (hne : digits ≠ []) (hdigits : ∀ c ∈ digits, c.isDigit = true) :
    parseDigits digits = some (Nat.ofDigitChars 10 digits 0) :=
  if_pos ⟨hne, all_eq_true.mpr hdigits⟩

theorem parseDecimal_of_digits (hne : digits ≠ []) (hdigits : ∀ c ∈ digits, c.isDigit = true) :
    parseDecimal digits = some (Nat.ofDigitChars 10 digits 0, 0) := by
  have hspan : digits.span Char.isDigit = (digits, []) := by
    rw [span_eq_takeWhile_dropWhile, takeWhile_eq_self_iff.mpr hdigits, dropWhile_eq_nil_iff.mpr hdigits]
  rw [parseDecimal, hspan]
  dsimp only
  rw [append_nil, parseDigits_of_digits hne hdigits]
  rfl

theorem not_mem_numberNames (hne : digits ≠ []) (hdigits : ∀ c ∈ digits, c.isDigit = true) :
    String.ofList (digits.map Char.toLower) ∉ ["inf", "infinity", "nan"] := by
  obtain ⟨c, digits, rfl⟩ := exists_cons_of_ne_nil hne
  have hdigit : c.isDigit = true := hdigits c mem_cons_self
  have hlower : c.toLower = c := by
    unfold Char.toLower
    rw [dif_neg]
    intro hupper
    have hlow : 65 ≤ c.val.toNat := hupper.1
    have hhigh : c.val.toNat ≤ 57 := (Bool.and_eq_true_iff.mp hdigit).2 |> of_decide_eq_true
    omega
  intro h
  rw [map_cons, hlower] at h
  simp only [mem_cons, not_mem_nil, or_false] at h
  rcases h with h | h | h
  all_goals
    have hhead := congrArg (fun text => text.toList.head?) h
    simp at hhead
    subst hhead
    exact absurd hdigit (by decide)

/-- **A text that writes an integer** is read as it if it is an `i64`, otherwise as the nearest double. -/
theorem parseNumber_of_writesInt (h : WritesInt text z) :
    (IsI64 z ∧ parseNumber text = some (.int z)) ∨
      (¬ IsI64 z ∧ ∃ d : Dyadic, 0 ≤ d.exp ∧ d.mant ≤ 2 ^ 53 ∧ d.scaled 0 = roundedInt z ∧
        parseNumber text = some (jsonOfF64 d)) := by
  obtain ⟨neg, digits, hsplit, hne, hdigits, rfl⟩ := splitSign_of_writesInt h
  have hparse : parseI64 text = if IsI64 (Dyadic.signed neg (Nat.ofDigitChars 10 digits 0)) then
      some (Dyadic.signed neg (Nat.ofDigitChars 10 digits 0)) else none := by
    rw [parseI64, hsplit]
    dsimp only
    rw [parseDigits_of_digits hne hdigits]
    rfl
  by_cases hi64 : IsI64 (Dyadic.signed neg (Nat.ofDigitChars 10 digits 0))
  · rw [parseNumber, hparse, if_pos hi64]
    exact Or.inl ⟨hi64, rfl⟩
  · obtain ⟨d, hexp, hmant, hvalue, hdecimal⟩ := Dyadic.ofDecimal_zero neg (Nat.ofDigitChars 10 digits 0)
    refine Or.inr ⟨hi64, d, hexp, hmant, hvalue, ?_⟩
    rw [parseNumber, hparse, if_neg hi64]
    dsimp only
    rw [parseF64, hsplit]
    dsimp only
    rw [if_neg (not_mem_numberNames hne hdigits), parseDecimal_of_digits hne hdigits, jsonOfF64, ← hdecimal]
    rfl

end

end PowdrrEngine
