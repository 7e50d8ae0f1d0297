import Mathlib.Data.Int.Log
import Mathlib.Data.Rat.Floor
import Mathlib.Algebra.Order.Field.Power
import Mathlib.Tactic.Positivity

/-!
Signed machine integers of a width, as integers in the range of the width. A
product is reduced to that range, so it is the product of the integers exactly
when that product fits.
-/

namespace MachineInt

/-- `x` is a value of the signed integers with `width + 1` bits. -/
def Fits (width : Nat) (x : Int) : Prop :=
  -2 ^ width ≤ x ∧ x < 2 ^ width

instance (width : Nat) (x : Int) : Decidable (Fits width x) :=
  inferInstanceAs (Decidable (_ ∧ _))

/-- The value that is left of `x` in `width + 1` bits. -/
def wrap (width : Nat) (x : Int) : Int :=
  x.bmod (2 ^ (width + 1))

variable {width : Nat} {x y : Int}

theorem wrap_of_fits (h : Fits width x) : wrap width x = x := by
  have hsplit : ((2 ^ (width + 1) : Nat) : Int) = 2 * 2 ^ width := by
    rw [Nat.cast_pow, pow_succ]
    simp [Int.mul_comm]
  obtain ⟨hlow, hhigh⟩ := h
  apply Int.bmod_eq_of_le
  · omega
  omega

end MachineInt

/-!
The numbers of double precision as rationals. Rounding goes to the nearest number, of
two to the one with the even significand, and has no result where it overflows. Integers
below `2 ^ 53` are kept, and greater ones stay above.
-/

namespace Double

/-- The nearest integer, of two the even one. -/
def roundEven (x : ℚ) : ℤ :=
  let k := ⌊x⌋
  if x - k < 1 / 2 then k else if 1 / 2 < x - k then k + 1 else k + k % 2

/-- The distance of the numbers around `x`. -/
def spacing (x : ℚ) : ℚ := 2 ^ (max (-1022) (Int.log 2 |x|) - 52)

/-- What rounds to an infinity. -/
def overflow : ℚ := (2 ^ 53 - 1 / 2) * 2 ^ 971

def round (x : ℚ) : Option ℚ :=
  if |x| < overflow then some (roundEven (x / spacing x) * spacing x) else none

theorem roundEven_intCast (k : ℤ) : roundEven k = k := by
  simp [roundEven]

theorem le_roundEven {x : ℚ} {k : ℤ} (h : (k : ℚ) ≤ x) : k ≤ roundEven x := by
  have hfloor : k ≤ ⌊x⌋ := Int.le_floor.mpr h
  unfold roundEven
  simp only []
  split
  · exact hfloor
  split <;> omega

theorem spacing_pos (x : ℚ) : 0 < spacing x := by
  unfold spacing
  positivity

theorem log_intCast (n : ℤ) : Int.log 2 |(n : ℚ)| = Nat.log 2 n.natAbs := by
  have habs : |(n : ℚ)| = (n.natAbs : ℚ) := by
    rw [← Int.cast_abs, Int.abs_eq_natAbs]
    rfl
  rw [habs, Int.log_natCast]

theorem round_intCast {n : ℤ} (hn : n.natAbs < 2 ^ 53) : round (n : ℚ) = some (n : ℚ) := by
  have hgreat : (2 : ℚ) ^ 53 ≤ overflow := by
    have hpower : (1 : ℚ) ≤ 2 ^ 918 := one_le_pow₀ (by norm_num)
    have hsplit : overflow = (2 ^ 53 - 1 / 2) * 2 ^ 53 * 2 ^ 918 := by
      rw [overflow, mul_assoc, ← pow_add]
    rw [hsplit]
    generalize (2 : ℚ) ^ 918 = power at hpower
    linarith
  by_cases hzero : n = 0
  · have hbound : |((0 : ℤ) : ℚ)| < overflow := by
      rw [Int.cast_zero, abs_zero]
      exact lt_of_lt_of_le (by norm_num) hgreat
    rw [hzero, round, if_pos hbound, Int.cast_zero, zero_div]
    simp [roundEven]
  have hlog : Nat.log 2 n.natAbs < 53 :=
    Nat.log_lt_of_lt_pow (by omega) hn
  obtain ⟨shift, hshift⟩ : ∃ shift : ℕ, spacing n = ((2 : ℚ) ^ shift)⁻¹ := by
    refine ⟨52 - Nat.log 2 n.natAbs, ?_⟩
    unfold spacing
    rw [log_intCast, ← zpow_natCast, ← zpow_neg]
    congr 1
    omega
  have hscaled : (n : ℚ) / spacing n = ((n * 2 ^ shift : ℤ) : ℚ) := by
    rw [hshift, div_inv_eq_mul]
    push_cast
    rfl
  have hbound : |(n : ℚ)| < overflow := by
    have habs : |(n : ℚ)| < 2 ^ 53 := by
      rw [← Int.cast_abs, Int.abs_eq_natAbs]
      exact_mod_cast hn
    exact lt_of_lt_of_le habs hgreat
  rw [round, if_pos hbound, hscaled, roundEven_intCast, ← hscaled,
    div_mul_cancel₀ _ (spacing_pos _).ne']

theorem le_round {x y : ℚ} (hx : 2 ^ 53 ≤ x) (hy : round x = some y) : 2 ^ 53 ≤ y := by
  have hpos : 0 < x := lt_of_lt_of_le (by norm_num) hx
  unfold round at hy
  split at hy
  · cases hy
    have hlog : 53 ≤ Int.log 2 x := by
      apply (Int.zpow_le_iff_le_log (by norm_num) hpos).mp
      exact_mod_cast hx
    have hspacing : spacing x = 2 ^ (Int.log 2 x - 52) := by
      unfold spacing
      rw [abs_of_pos hpos, max_eq_right (by omega)]
    have hself : (2 : ℚ) ^ Int.log 2 x ≤ x := by
      have h := Int.zpow_log_le_self (b := 2) (by norm_num) hpos
      exact_mod_cast h
    have hsplit : (2 : ℚ) ^ Int.log 2 x = 2 ^ 52 * spacing x := by
      rw [hspacing, ← zpow_natCast, ← zpow_add₀ (by norm_num)]
      congr 1
      push_cast
      ring
    have hscaled : ((2 ^ 52 : ℤ) : ℚ) ≤ x / spacing x := by
      rw [le_div_iff₀ (spacing_pos x)]
      push_cast
      linarith
    have hrounded : ((2 ^ 52 : ℤ) : ℚ) ≤ roundEven (x / spacing x) := by
      exact_mod_cast le_roundEven hscaled
    have hpower : (2 : ℚ) ^ (53 : ℤ) ≤ 2 ^ Int.log 2 x :=
      zpow_le_zpow_right₀ (by norm_num) hlog
    have hproduct := mul_le_mul_of_nonneg_right hrounded (spacing_pos x).le
    push_cast at hproduct
    have hgreat : (2 : ℚ) ^ (53 : ℤ) = 2 ^ 53 := by norm_num
    linarith
  cases hy

theorem le_of_round_le {n bound : ℤ} {y : ℚ} (hpos : 0 ≤ bound) (hbound : bound < 2 ^ 53)
    (hy : round (n : ℚ) = some y) (hle : y ≤ bound) : n ≤ bound := by
  by_contra hgreater
  by_cases hsmall : n < 2 ^ 53
  · rw [round_intCast (by omega)] at hy
    cases hy
    exact hgreater (by exact_mod_cast hle)
  have hgreat : (2 : ℚ) ^ 53 ≤ n := by exact_mod_cast not_lt.mp hsmall
  have hfar := le_round hgreat hy
  have hbound' : (bound : ℚ) < 2 ^ 53 := by exact_mod_cast hbound
  linarith

theorem roundEven_nonpos {x : ℚ} (hx : x ≤ 0) : roundEven x ≤ 0 := by
  have hfloor : ⌊x⌋ ≤ 0 := Int.floor_nonpos hx
  unfold roundEven
  simp only []
  split
  · exact hfloor
  rename_i hfar
  have hneg : ⌊x⌋ ≠ 0 := by
    intro hzero
    rw [hzero] at hfar
    push_cast at hfar
    linarith
  split <;> omega

theorem round_nonpos {x y : ℚ} (hx : x ≤ 0) (hy : round x = some y) : y ≤ 0 := by
  unfold round at hy
  split at hy
  · cases hy
    have hscaled : x / spacing x ≤ 0 := div_nonpos_of_nonpos_of_nonneg hx (spacing_pos x).le
    have hrounded : (roundEven (x / spacing x) : ℚ) ≤ 0 := by
      exact_mod_cast roundEven_nonpos hscaled
    exact mul_nonpos_of_nonpos_of_nonneg hrounded (spacing_pos x).le
  cases hy

end Double
