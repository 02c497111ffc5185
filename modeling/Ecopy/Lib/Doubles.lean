import Mathlib.Algebra.Order.Floor.Ring
import Mathlib.Data.Int.Log
import Mathlib.Data.Rat.Floor
import Mathlib.Tactic.Linarith
import Mathlib.Tactic.Ring

/-!
# Double precision

Positive numbers rounded to a significand of 53 bits, to the nearest and to even at a
tie. The exponent is not bounded, so there is neither overflow nor underflow. Rounding
never passes a whole number below `2 ^ 53`, and the relative error is `2 ^ -53`.
-/
namespace Ecopy.Lib.Doubles

/-- The nearest integer, the even one at a tie. -/
def roundEven (x : ℚ) : ℤ :=
  if x - ⌊x⌋ < 1 / 2 then ⌊x⌋
  else if 1 / 2 < x - ⌊x⌋ then ⌊x⌋ + 1
  else ⌊x⌋ + ⌊x⌋ % 2

theorem floor_le_roundEven (x : ℚ) : ⌊x⌋ ≤ roundEven x := by
  have hmod := Int.emod_nonneg ⌊x⌋ (show (2 : ℤ) ≠ 0 by decide)
  unfold roundEven
  split
  · exact le_refl _
  · split <;> omega

theorem intCast_le_roundEven {x : ℚ} {k : ℤ} (h : (k : ℚ) ≤ x) : k ≤ roundEven x :=
  (Int.le_floor.mpr h).trans (floor_le_roundEven x)

theorem sub_half_le_roundEven (x : ℚ) : x - 1 / 2 ≤ roundEven x := by
  have hfloor := Int.lt_floor_add_one x
  have hmod := Int.emod_nonneg ⌊x⌋ (show (2 : ℤ) ≠ 0 by decide)
  unfold roundEven
  split
  · linarith
  · rename_i hhalf
    split
    · push_cast
      linarith
    · rename_i hmore
      have hcast : (0 : ℚ) ≤ ((⌊x⌋ % 2 : ℤ) : ℚ) := by exact_mod_cast hmod
      push_cast at hcast ⊢
      linarith

theorem roundEven_le_add_half (x : ℚ) : roundEven x ≤ x + 1 / 2 := by
  have hfloor := Int.floor_le x
  have hmod := Int.emod_lt_of_pos ⌊x⌋ (show (0 : ℤ) < 2 by decide)
  unfold roundEven
  split
  · linarith
  · rename_i hhalf
    split
    · push_cast
      linarith
    · rename_i hmore
      have hcast : ((⌊x⌋ % 2 : ℤ) : ℚ) ≤ 1 := by exact_mod_cast Int.lt_add_one_iff.mp hmod
      push_cast at hcast ⊢
      linarith

/-- The distance between neighbouring doubles at `x`. -/
def ulp (x : ℚ) : ℚ := 2 ^ (Int.log 2 x - 52)

theorem ulp_pos (x : ℚ) : 0 < ulp x :=
  zpow_pos (by norm_num) _

/-- The double nearest to `x`, for `0 < x`. -/
def double (x : ℚ) : ℚ := roundEven (x / ulp x) * ulp x

theorem scale_ulp {x : ℚ} (hx : 0 < x) : 2 ^ 52 * ulp x ≤ x := by
  have hlog := Int.zpow_log_le_self (b := 2) (by decide) hx
  have hsplit : (2 : ℚ) ^ 52 * ulp x = 2 ^ Int.log 2 x := by
    unfold ulp
    rw [← zpow_natCast, ← zpow_add₀ (by norm_num)]
    congr 1
    push_cast
    ring
  rw [hsplit]
  exact_mod_cast hlog

theorem half_ulp_le {x : ℚ} (hx : 0 < x) : ulp x / 2 ≤ x / 2 ^ 53 := by
  have hscale := scale_ulp hx
  have hpow : (2 : ℚ) ^ 53 = 2 ^ 52 * 2 := by norm_num
  rw [hpow, div_le_div_iff₀ (by norm_num) (by norm_num)]
  linarith

/-- The relative error from below. -/
theorem sub_le_double {x : ℚ} (hx : 0 < x) : x - x / 2 ^ 53 ≤ double x := by
  have hpos := ulp_pos x
  have hhalf := mul_le_mul_of_nonneg_right (sub_half_le_roundEven (x / ulp x)) hpos.le
  have hself : (x / ulp x - 1 / 2) * ulp x = x - ulp x / 2 := by
    field_simp
  have hsmall := half_ulp_le hx
  unfold double
  linarith

/-- The relative error from above. -/
theorem double_le_add {x : ℚ} (hx : 0 < x) : double x ≤ x + x / 2 ^ 53 := by
  have hpos := ulp_pos x
  have hhalf := mul_le_mul_of_nonneg_right (roundEven_le_add_half (x / ulp x)) hpos.le
  have hself : (x / ulp x + 1 / 2) * ulp x = x + ulp x / 2 := by
    field_simp
  have hsmall := half_ulp_le hx
  unfold double
  linarith

/-- Rounding does not pass a whole number that a double can hold. -/
theorem natCast_le_double {x : ℚ} {n : ℕ} (hn : n < 2 ^ 53) (hx : 0 < x) (h : (n : ℚ) ≤ x) :
    (n : ℚ) ≤ double x := by
  have hpos := ulp_pos x
  have hkey : ∀ k : ℤ, (k : ℚ) ≤ x / ulp x → (k : ℚ) * ulp x ≤ double x := by
    intro k hk
    apply mul_le_mul_of_nonneg_right _ hpos.le
    exact_mod_cast intCast_le_roundEven hk
  rcases le_or_gt (Int.log 2 x) 52 with hlog | hlog
  · -- the doubles around `x` include every whole number
    have hwhole : ((n * 2 ^ (52 - Int.log 2 x).toNat : ℤ) : ℚ) * ulp x = n := by
      unfold ulp
      push_cast
      rw [mul_assoc, ← zpow_natCast, ← zpow_add₀ (by norm_num)]
      have hexp : ((52 - Int.log 2 x).toNat : ℤ) + (Int.log 2 x - 52) = 0 := by omega
      rw [hexp, zpow_zero, mul_one]
    rw [← hwhole]
    apply hkey
    rw [le_div_iff₀ hpos, hwhole]
    exact h
  · -- `x` is beyond every whole number in question
    have hbig : (2 : ℚ) ^ 53 ≤ 2 ^ 52 * ulp x := by
      unfold ulp
      rw [← zpow_natCast, ← zpow_natCast, ← zpow_add₀ (by norm_num)]
      apply zpow_le_zpow_right₀ (by norm_num)
      push_cast
      omega
    have hle := hkey (2 ^ 52) (by
      rw [le_div_iff₀ hpos]
      push_cast
      exact scale_ulp hx)
    push_cast at hle
    have hcast : (n : ℚ) ≤ 2 ^ 53 := by exact_mod_cast hn.le
    linarith

end Ecopy.Lib.Doubles
