import Mathlib.Data.Int.Log
import Mathlib.Data.Rat.Floor
import Mathlib.Tactic.Linarith

/-!
# Double precision

A `double` has 53 significant bits. A positive number is rounded to the nearest multiple of the
unit of its binade, and to the even one of two that are equally near. Numbers that are too large or
too small for the exponent are left out.

Rounding keeps the order (`toDouble_mono`) and does not change an integer below `2 ^ 53`
(`toDouble_natCast`).
-/

set_option autoImplicit false

namespace Enuwatch.Lib

/-- The nearest integer, the even one of two. -/
def nearestEven (x : ℚ) : ℤ :=
  if Int.fract x < 1 / 2 ∨ Int.fract x = 1 / 2 ∧ Even ⌊x⌋ then ⌊x⌋ else ⌊x⌋ + 1

/-- The unit in the last place. -/
def ulp (q : ℚ) : ℚ := 2 ^ (Int.log 2 q - 52)

/-- A number that is not negative, rounded to double precision. -/
def toDouble (q : ℚ) : ℚ := nearestEven (q / ulp q) * ulp q

theorem floor_le_nearestEven (x : ℚ) : ⌊x⌋ ≤ nearestEven x := by
  unfold nearestEven
  split <;> omega

theorem nearestEven_le_floor (x : ℚ) : nearestEven x ≤ ⌊x⌋ + 1 := by
  unfold nearestEven
  split <;> omega

theorem nearestEven_intCast (n : ℤ) : nearestEven n = n := by
  have whole : Int.fract (n : ℚ) < 1 / 2 := by
    rw [Int.fract_intCast]
    norm_num
  rw [nearestEven, if_pos (.inl whole), Int.floor_intCast]

theorem nearestEven_mono {x y : ℚ} (less : x ≤ y) : nearestEven x ≤ nearestEven y := by
  rcases (Int.floor_mono less).eq_or_lt with same | apart
  · have parts : Int.fract x ≤ Int.fract y := by
      have first := Int.floor_add_fract x
      have second := Int.floor_add_fract y
      rw [same] at first
      linarith
    by_cases down : Int.fract y < 1 / 2 ∨ Int.fract y = 1 / 2 ∧ Even ⌊y⌋
    · have down' : Int.fract x < 1 / 2 ∨ Int.fract x = 1 / 2 ∧ Even ⌊x⌋ := by
        rcases down with lower | ⟨middle, even⟩
        · exact .inl (parts.trans_lt lower)
        · rcases (middle ▸ parts).lt_or_eq with lower | middle'
          · exact .inl lower
          · exact .inr ⟨middle', same ▸ even⟩
      rw [nearestEven, if_pos down', nearestEven, if_pos down, same]
    · have up : nearestEven y = ⌊y⌋ + 1 := if_neg down
      rw [up, ← same]
      exact nearestEven_le_floor x
  · have above := nearestEven_le_floor x
    have below := floor_le_nearestEven y
    omega

theorem ulp_pos (q : ℚ) : 0 < ulp q := zpow_pos (by norm_num) _

/-- A power of two in units of its binade. -/
theorem zpow_eq_mul_ulp (q : ℚ) : (2 : ℚ) ^ Int.log 2 q = (2 ^ 52 : ℤ) * ulp q := by
  have split : Int.log 2 q = 52 + (Int.log 2 q - 52) := by ring
  rw [ulp]
  nth_rewrite 1 [split]
  rw [zpow_add₀ (by norm_num)]
  norm_num

/-- Rounding stays above the power of two below. -/
theorem zpow_log_le_toDouble {q : ℚ} (positive : 0 < q) : (2 : ℚ) ^ Int.log 2 q ≤ toDouble q := by
  have least : ((2 ^ 52 : ℤ) : ℚ) ≤ q / ulp q := by
    rw [le_div_iff₀ (ulp_pos q), ← zpow_eq_mul_ulp]
    exact Int.zpow_log_le_self (by norm_num) positive
  have rounded : ((2 ^ 52 : ℤ) : ℚ) ≤ nearestEven (q / ulp q) := by
    rw [Int.cast_le, ← nearestEven_intCast (2 ^ 52)]
    exact nearestEven_mono least
  rw [zpow_eq_mul_ulp, toDouble]
  exact mul_le_mul_of_nonneg_right rounded (ulp_pos q).le

/-- Rounding may go up to the power of two above. -/
theorem toDouble_le_zpow_log (q : ℚ) : toDouble q ≤ (2 : ℚ) ^ (Int.log 2 q + 1) := by
  have unit : (2 : ℚ) ^ (Int.log 2 q + 1) = ((2 ^ 53 : ℤ) : ℚ) * ulp q := by
    rw [zpow_add_one₀ (by norm_num), zpow_eq_mul_ulp]
    push_cast
    ring
  have most : q / ulp q ≤ ((2 ^ 53 : ℤ) : ℚ) := by
    rw [div_le_iff₀ (ulp_pos q), ← unit]
    exact (Int.lt_zpow_succ_log_self (by norm_num) q).le
  have rounded : (nearestEven (q / ulp q) : ℚ) ≤ ((2 ^ 53 : ℤ) : ℚ) := by
    rw [Int.cast_le, ← nearestEven_intCast (2 ^ 53)]
    exact nearestEven_mono most
  rw [unit, toDouble]
  exact mul_le_mul_of_nonneg_right rounded (ulp_pos q).le

theorem toDouble_nonneg {q : ℚ} (nonneg : 0 ≤ q) : 0 ≤ toDouble q := by
  have rounded : nearestEven ((0 : ℤ) : ℚ) ≤ nearestEven (q / ulp q) :=
    nearestEven_mono (by simpa using div_nonneg nonneg (ulp_pos q).le)
  rw [nearestEven_intCast] at rounded
  exact mul_nonneg (Int.cast_nonneg rounded) (ulp_pos q).le

theorem toDouble_zero : toDouble 0 = 0 := by
  have zero := nearestEven_intCast 0
  rw [Int.cast_zero] at zero
  rw [toDouble, zero_div, zero, Int.cast_zero, zero_mul]

/-- **Rounding keeps the order.** -/
theorem toDouble_mono {p q : ℚ} (nonneg : 0 ≤ p) (less : p ≤ q) : toDouble p ≤ toDouble q := by
  rcases nonneg.eq_or_lt with rfl | positive
  · rw [toDouble_zero]
    exact toDouble_nonneg less
  · rcases (Int.log_mono_right positive less).eq_or_lt with same | apart
    · -- In one binade the unit is the same.
      have unit : ulp p = ulp q := by rw [ulp, ulp, same]
      rw [toDouble, toDouble, unit]
      have rounded : nearestEven (p / ulp q) ≤ nearestEven (q / ulp q) :=
        nearestEven_mono (div_le_div_of_nonneg_right less (ulp_pos q).le)
      exact mul_le_mul_of_nonneg_right (Int.cast_le.2 rounded) (ulp_pos q).le
    · calc toDouble p ≤ (2 : ℚ) ^ (Int.log 2 p + 1) := toDouble_le_zpow_log p
        _ ≤ (2 : ℚ) ^ Int.log 2 q := zpow_le_zpow_right₀ (by norm_num) apart
        _ ≤ toDouble q := zpow_log_le_toDouble (positive.trans_le less)

/-- **An integer of at most 53 bits is not changed.** -/
theorem toDouble_natCast {n : ℕ} (small : n < 2 ^ 53) : toDouble n = n := by
  rcases Nat.eq_zero_or_pos n with rfl | positive
  · simpa using toDouble_zero
  · have binade : Nat.log 2 n ≤ 52 :=
      Nat.lt_succ_iff.1 (Nat.log_lt_of_lt_pow positive.ne' small)
    have exponent : Int.log 2 (n : ℚ) - 52 = -((52 - Nat.log 2 n : ℕ) : ℤ) := by
      rw [Int.log_natCast]
      omega
    have units : (n : ℚ) / ulp n = ((n * 2 ^ (52 - Nat.log 2 n) : ℤ) : ℚ) := by
      rw [ulp, exponent, zpow_neg, zpow_natCast, div_inv_eq_mul]
      push_cast
      rfl
    rw [toDouble, units, nearestEven_intCast, ← units, div_mul_cancel₀ _ (ulp_pos n).ne']

end Enuwatch.Lib
