import PowdrrEngine.ServingPlan

/-! Rounding to a double keeps the order of the integers, and only makes it coarser: what `as_f64` says
of two values is what SQL says of them, or that they are equal. -/

namespace PowdrrEngine

open PowdrrEngine.Dyadic Int

namespace Dyadic

variable (n : Nat)

/-- The natural number that `roundNat` stands for. -/
def rounded : Nat := (roundNat n).mant * 2 ^ (roundNat n).exp.toNat

theorem roundNat_neg : (roundNat n).neg = false := by
  unfold roundNat
  dsimp only
  split
  · rfl
  · split <;> rfl

theorem roundNat_exp_nonneg : 0 ≤ (roundNat n).exp := by
  unfold roundNat
  dsimp only
  split
  · exact le_rfl
  · split <;> exact natCast_nonneg _

theorem scaled_roundNat : (roundNat n).scaled 0 = rounded n := by
  simp [scaled, rounded, roundNat_neg]

theorem rounded_of_log2_lt {n : Nat} (h : n.log2 < 53) : rounded n = n := by
  have hbits : n.log2 + 1 ≤ 53 := h
  simp [rounded, roundNat, hbits]

/-- Integers up to `2 ^ 53` are doubles. -/
theorem rounded_of_le {n : Nat} (h : n ≤ 2 ^ 53) : rounded n = n := by
  rcases h.lt_or_eq with hlt | rfl
  · rcases Nat.eq_zero_or_pos n with rfl | hpos
    · rfl
    · exact rounded_of_log2_lt ((Nat.log2_lt hpos.ne').mpr hlt)
  · decide +kernel

def roundUp (quotient remainder half : Nat) : Nat :=
  if half < remainder ∨ (remainder = half ∧ quotient % 2 = 1) then quotient + 1 else quotient

theorem le_roundUp (q r half : Nat) : q ≤ roundUp q r half := by
  unfold roundUp
  split <;> omega

theorem roundUp_le (q r half : Nat) : roundUp q r half ≤ q + 1 := by
  unfold roundUp
  split <;> omega

theorem roundUp_mono {q r r' : Nat} (half : Nat) (h : r ≤ r') : roundUp q r half ≤ roundUp q r' half := by
  unfold roundUp
  split <;> split <;> omega

theorem rounded_of_le_log2 {n : Nat} (h : 53 ≤ n.log2) :
    rounded n = roundUp (n / 2 ^ (n.log2 - 52)) (n % 2 ^ (n.log2 - 52)) (2 ^ (n.log2 - 53)) *
      2 ^ (n.log2 - 52) := by
  have hbits : ¬ n.log2 + 1 ≤ 53 := by omega
  have hshift : n.log2 + 1 - 53 = n.log2 - 52 := by omega
  have hhalf : n.log2 - 52 - 1 = n.log2 - 53 := by omega
  unfold rounded roundNat roundUp
  simp only [if_neg hbits, hshift, hhalf]
  split <;> rw [toNat_natCast]

theorem two_pow_log2_le_rounded {n : Nat} (h : n ≠ 0) : 2 ^ n.log2 ≤ rounded n := by
  have hn : 2 ^ n.log2 ≤ n := Nat.log2_self_le h
  by_cases hsmall : n.log2 < 53
  · rwa [rounded_of_log2_lt hsmall]
  have hsplit : n.log2 = 52 + (n.log2 - 52) := by omega
  rw [rounded_of_le_log2 (by omega)]
  calc 2 ^ n.log2 = 2 ^ 52 * 2 ^ (n.log2 - 52) := by rw [← pow_add, ← hsplit]
    _ ≤ n / 2 ^ (n.log2 - 52) * 2 ^ (n.log2 - 52) := by
        refine Nat.mul_le_mul_right _ ((Nat.le_div_iff_mul_le (by positivity)).mpr ?_)
        rwa [← pow_add, ← hsplit]
    _ ≤ _ := Nat.mul_le_mul_right _ (le_roundUp _ _ _)

theorem rounded_le_two_pow : rounded n ≤ 2 ^ (n.log2 + 1) := by
  have hn : n < 2 ^ (n.log2 + 1) := Nat.lt_log2_self
  by_cases hsmall : n.log2 < 53
  · rw [rounded_of_log2_lt hsmall]
    exact hn.le
  have hsplit : n.log2 + 1 = 53 + (n.log2 - 52) := by omega
  rw [rounded_of_le_log2 (by omega), hsplit, pow_add]
  refine Nat.mul_le_mul_right _ ((roundUp_le _ _ _).trans ?_)
  rw [Nat.succ_le_iff, Nat.div_lt_iff_lt_mul (by positivity), ← pow_add, ← hsplit]
  exact hn

/-- Rounding keeps the order: across two binades the power of two between them separates the results,
within one the quotient decides and then the remainder. -/
theorem rounded_mono {n m : Nat} (h : n ≤ m) : rounded n ≤ rounded m := by
  rcases Nat.eq_zero_or_pos n with rfl | hn
  · exact Nat.zero_le _
  have hm : m ≠ 0 := by omega
  have hlog : n.log2 ≤ m.log2 := (Nat.le_log2 hm).mpr ((Nat.log2_self_le (by omega)).trans h)
  rcases hlog.lt_or_eq with hlt | heq
  · calc rounded n ≤ 2 ^ (n.log2 + 1) := rounded_le_two_pow n
      _ ≤ 2 ^ m.log2 := Nat.pow_le_pow_right (by decide) hlt
      _ ≤ rounded m := two_pow_log2_le_rounded hm
  by_cases hsmall : m.log2 < 53
  · rwa [rounded_of_log2_lt hsmall, rounded_of_log2_lt (heq ▸ hsmall)]
  rw [rounded_of_le_log2 (by omega), rounded_of_le_log2 (by omega : 53 ≤ m.log2), heq]
  refine Nat.mul_le_mul_right _ ?_
  rcases (Nat.div_le_div_right h : n / 2 ^ (m.log2 - 52) ≤ m / 2 ^ (m.log2 - 52)).lt_or_eq with hq | hq
  · exact (roundUp_le _ _ _).trans ((Nat.succ_le_of_lt hq).trans (le_roundUp _ _ _))
  have hr : n % 2 ^ (m.log2 - 52) ≤ m % 2 ^ (m.log2 - 52) := by
    have h1 := Nat.div_add_mod n (2 ^ (m.log2 - 52))
    have h2 := Nat.div_add_mod m (2 ^ (m.log2 - 52))
    rw [hq] at h1
    omega
  rw [hq]
  exact roundUp_mono _ hr

end Dyadic

/-! ### Integers as doubles -/

/-- The integer that the double of an integer stands for. -/
def roundedInt : Int → Int
  | .ofNat n => Dyadic.rounded n
  | .negSucc n => -Dyadic.rounded (n + 1)

theorem roundedInt_mono {a b : Int} (h : a ≤ b) : roundedInt a ≤ roundedInt b := by
  cases a with
  | ofNat n =>
    cases b with
    | ofNat m =>
      have hnm : n ≤ m := by simpa using h
      exact ofNat_le.mpr (rounded_mono hnm)
    | negSucc m => exact absurd h (not_le.mpr ((negSucc_lt_zero m).trans_le (natCast_nonneg n)))
  | negSucc n =>
    cases b with
    | ofNat m =>
      simp only [roundedInt]
      omega
    | negSucc m =>
      have hmn : m + 1 ≤ n + 1 := by omega
      have hle : (Dyadic.rounded (m + 1) : Int) ≤ Dyadic.rounded (n + 1) := ofNat_le.mpr (rounded_mono hmn)
      simp only [roundedInt]
      omega

theorem roundedInt_of_le {z : Int} (h : z.natAbs ≤ 2 ^ 53) : roundedInt z = z := by
  cases z with
  | ofNat n => exact congrArg Int.ofNat (rounded_of_le h)
  | negSucc n =>
    have hle : n + 1 ≤ 2 ^ 53 := h
    rw [roundedInt, rounded_of_le hle]
    rfl

/-- An integer below `2 ^ 53` is the only one with its double. -/
theorem roundedInt_eq_iff {a b : Int} (h : b.natAbs < 2 ^ 53) : roundedInt a = roundedInt b ↔ a = b := by
  refine ⟨fun heq => ?_, congrArg roundedInt⟩
  rw [roundedInt_of_le h.le] at heq
  rcases lt_trichotomy a b with hlt | rfl | hgt
  · have hle := roundedInt_mono (Int.le_sub_one_of_lt hlt)
    rw [roundedInt_of_le (by omega : (b - 1).natAbs ≤ 2 ^ 53)] at hle
    omega
  · rfl
  · have hle := roundedInt_mono (Int.add_one_le_of_lt hgt)
    rw [roundedInt_of_le (by omega : (b + 1).natAbs ≤ 2 ^ 53)] at hle
    omega

theorem Number.asF64_of_asInt {n : Number} {z : Int} (h : n.asInt = some z) :
    0 ≤ n.asF64.exp ∧ n.asF64.scaled 0 = roundedInt z := by
  cases n with
  | posInt n =>
    cases h
    exact ⟨roundNat_exp_nonneg n, scaled_roundNat n⟩
  | negInt n =>
    cases h
    refine ⟨roundNat_exp_nonneg (n + 1), ?_⟩
    have hz : (-((n : Int) + 1)) = Int.negSucc n := by omega
    rw [hz]
    simp [Number.asF64, Dyadic.scaled, roundedInt, Dyadic.rounded]
  | float f => cases h

theorem cmp_asF64_eq_compare {a b : Number} {x y : Int} (ha : a.asInt = some x) (hb : b.asInt = some y) :
    a.asF64.cmp b.asF64 = compare (roundedInt x) (roundedInt y) := by
  obtain ⟨hae, has⟩ := Number.asF64_of_asInt ha
  obtain ⟨hbe, hbs⟩ := Number.asF64_of_asInt hb
  rw [cmp_eq_compare_scaled hae hbe, has, hbs]

theorem cmp_asF64_of_asInt {a b : Number} {x y : Int} (ha : a.asInt = some x) (hb : b.asInt = some y) :
    a.asF64.cmp b.asF64 = compare x y ∨ a.asF64.cmp b.asF64 = .eq := by
  rw [cmp_asF64_eq_compare ha hb]
  rcases lt_trichotomy x y with h | h | h
  · rw [compare_lt_iff_lt.mpr h]
    rcases (roundedInt_mono h.le).lt_or_eq with h' | h'
    · exact Or.inl (compare_lt_iff_lt.mpr h')
    · exact Or.inr (compare_eq_iff_eq.mpr h')
  · exact Or.inr (compare_eq_iff_eq.mpr (congrArg roundedInt h))
  · rw [compare_gt_iff_gt.mpr h]
    rcases (roundedInt_mono h.le).lt_or_eq with h' | h'
    · exact Or.inl (compare_gt_iff_gt.mpr h')
    · exact Or.inr (compare_eq_iff_eq.mpr h'.symm)

/-- **Coarsening.** Where SQL compares two values, the serving code finds the same, or that they are
equal. -/
theorem compareScalarValues_of_sqlCompare {a b : Value} {o : Ordering} (h : sqlCompare a b = some o) :
    compareScalarValues a b = some o ∨ compareScalarValues a b = some .eq := by
  cases a with
  | null | array _ | object _ => cases h
  | string a | bool a => exact Or.inl (by cases b <;> exact h)
  | number a =>
    cases b with
    | null | array _ | object _ | string _ | bool _ => cases h
    | number b =>
      cases h
      simp only [compareScalarValues, Option.some.injEq]
      unfold sqlCompareNumbers
      split
      · rename_i x y hx hy
        exact cmp_asF64_of_asInt hx hy
      · exact Or.inl rfl

theorem sqlCompare_isSome {a b : Value} : (sqlCompare a b).isSome = (compareScalarValues a b).isSome := by
  cases a <;> cases b <;> rfl

theorem sqlCompare_of_compareScalarValues {a b : Value} {o : Ordering} (ho : o ≠ .eq)
    (h : compareScalarValues a b = some o) : sqlCompare a b = some o := by
  have hsome : (sqlCompare a b).isSome = true := by rw [sqlCompare_isSome, h]; rfl
  obtain ⟨o', ho'⟩ := Option.isSome_iff_exists.mp hsome
  rcases compareScalarValues_of_sqlCompare ho' with h' | h'
  · rw [ho', ← h', h]
  · rw [h] at h'
    exact absurd (Option.some.inj h') ho

end PowdrrEngine
