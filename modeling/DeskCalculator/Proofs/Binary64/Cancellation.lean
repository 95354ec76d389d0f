import DeskCalculator.Proofs.Binary64.Operations

/-!
# Differences and their sign

A difference of two doubles that is small is a double itself, since no bit of either lies
below the least exponent (`exists_value?_eq_sub`).  So rounding a difference does not move it
past a small number (`IsNearest.lt_neg_iff_sub_lt_neg`).  A quotient can be rounded to zero
instead; what stays negative is what lies below the half of the last bit
(`IsNearest.neg_iff`).
-/

namespace DeskCalculator
namespace Binary64

open Float.Model.UnpackedFloat (Sign)

variable {x y z : Float} {a b q r v : ℚ}

/-! ## Small differences -/

/-- Every value is a multiple of the least one. -/
theorem exists_eq_mul_least (h : value? x = some v) : ∃ i : Int, v = i * 2 ^ (-1074 : Int) := by
  obtain ⟨k, e, -, hle, rfl⟩ := exists_mantissa_of_value? h
  obtain ⟨n, hn⟩ := Int.eq_ofNat_of_zero_le (sub_nonneg.2 hle)
  obtain rfl : e = -1074 + n := by omega
  refine ⟨k * 2 ^ n, ?_⟩
  rw [zpow_add₀ (by norm_num), zpow_natCast, Int.cast_mul, Int.cast_pow, Int.cast_ofNat,
    mul_assoc, mul_comm ((2 : ℚ) ^ n)]

/-- **A small difference is exact.** -/
theorem exists_value?_eq_sub (hx : value? x = some a) (hy : value? y = some b)
    (h : |a - b| ≤ 2 ^ (-1022 : Int)) : ∃ z, value? z = some (a - b) := by
  obtain ⟨i, rfl⟩ := exists_eq_mul_least hx
  obtain ⟨j, rfl⟩ := exists_eq_mul_least hy
  have hpow : (0 : ℚ) < 2 ^ (-1074 : Int) := zpow_pos (by norm_num) _
  have hsplit : (2 : ℚ) ^ (-1022 : Int) = 2 ^ (52 : Nat) * 2 ^ (-1074 : Int) := by
    rw [← zpow_natCast, ← zpow_add₀ (by norm_num)]
    rfl
  rw [← sub_mul, abs_mul, abs_of_pos hpow, hsplit] at h
  have hsmall : |i - j| ≤ 2 ^ (52 : Nat) := by
    exact_mod_cast le_of_mul_le_mul_right h hpow
  rw [← sub_mul, ← Int.cast_sub]
  exact exists_value?_eq (hsmall.trans_lt (by norm_num)) (by decide) (by decide)

/-- Rounding a difference does not move it past a small number. -/
theorem IsNearest.lt_neg_iff_sub_lt_neg (h : IsNearest z (a - b)) (hx : value? x = some a)
    (hy : value? y = some b) (hz : value? z = some v) (hr : 0 ≤ r) (hlt : r < 2 ^ (-1022 : Int)) :
    v < -r ↔ a - b < -r := by
  obtain ⟨w, hw⟩ := exists_value?_eq (k := 1) (e := -1022) (by decide) (by decide) (by decide)
  obtain ⟨u, hu⟩ := exists_value?_eq (k := -1) (e := -1022) (by decide) (by decide) (by decide)
  rw [Int.cast_one, one_mul] at hw
  rw [Int.cast_neg, Int.cast_one, neg_one_mul] at hu
  rcases le_or_gt |a - b| (2 ^ (-1022 : Int)) with hsmall | hlarge
  · obtain ⟨x', hx'⟩ := exists_value?_eq_sub hx hy hsmall
    have hexact := h.value?_eq hx'
    rw [Option.some.inj (hz.symm.trans hexact)]
  · rcases lt_abs.1 hlarge with hpos | hneg
    · have hge := h.ge_of_ge hz hw hpos.le
      exact iff_of_false (by linarith) (by linarith)
    · have hle := h.le_of_le hz hu (by linarith)
      exact iff_of_true (by linarith) (by linarith)

/-! ## Numbers rounded to zero -/

/-- The greatest double below zero. -/
def leastNegative : Float :=
  ofParts (.finite .negative 1 (-1074) (by decide))

theorem parts_leastNegative : parts leastNegative = .finite .negative 1 (-1074) (by decide) :=
  parts_ofParts .negative ⟨by decide, by decide, Or.inr rfl⟩ (by decide) (by decide)

theorem value?_leastNegative : value? leastNegative = some (-(2 ^ (-1074 : Int))) := by
  rw [value?, parts_leastNegative]
  dsimp only
  rw [signed, Nat.cast_one, one_mul]

/-- A value below zero is at most the greatest such double. -/
theorem le_leastNegative (h : value? x = some v) (hv : v < 0) : v ≤ -(2 ^ (-1074 : Int)) := by
  obtain ⟨i, rfl⟩ := exists_eq_mul_least h
  have hpow : (0 : ℚ) < 2 ^ (-1074 : Int) := zpow_pos (by norm_num) _
  have hneg : i < 0 := by
    by_contra hle
    exact absurd hv (not_lt.2 (mul_nonneg (by exact_mod_cast not_lt.1 hle) hpow.le))
  have hone : (i : ℚ) ≤ -1 := by exact_mod_cast Int.le_sub_one_of_lt hneg
  have hle := mul_le_mul_of_nonneg_right hone hpow.le
  rwa [neg_one_mul] at hle

/-- **A number is rounded to a negative double exactly if it lies below half of the greatest
one.**  That half itself is rounded to the even zero. -/
theorem IsNearest.neg_iff (h : IsNearest x q) (hx : value? x = some v) :
    v < 0 ↔ q < -(2 ^ (-1075 : Int)) := by
  have hpow : (0 : ℚ) < 2 ^ (-1075 : Int) := zpow_pos (by norm_num) _
  have htwice : (2 : ℚ) ^ (-1074 : Int) = 2 * 2 ^ (-1075 : Int) := by
    rw [← zpow_one_add₀ (by norm_num)]
    rfl
  have hleast := value?_leastNegative
  rw [htwice] at hleast
  constructor
  · intro hneg
    by_contra hle
    have hvle := le_leastNegative hx hneg
    rw [htwice] at hvle
    obtain ⟨hnear, htie⟩ := h.abs_sub_le hx value?_zero
    rw [zero_sub, abs_neg, abs_of_nonpos (a := v - q) (by linarith)] at hnear htie
    -- only the tie between zero and the greatest negative double is left
    have habs : |q| = -q := by
      refine abs_of_nonpos ?_
      by_contra hpos
      rw [abs_of_pos (not_le.1 hpos)] at hnear
      linarith
    rw [habs] at hnear htie
    have hvalue : v = -(2 * 2 ^ (-1075 : Int)) := by linarith
    rw [hvalue] at hx
    rcases htie (by linarith) with hzero | heven
    · linarith
    · have hx' := eq_of_value?_eq hx hleast (by linarith)
      rw [hx', mantissa, parts_leastNegative] at heven
      exact absurd heven (by decide)
  · intro hlt
    by_contra hle
    have hnear := (h.abs_sub_le hx hleast).1
    rw [abs_of_nonneg (by linarith)] at hnear
    have hfar : |-(2 * 2 ^ (-1075 : Int)) - q| < -q := by
      rw [abs_lt]
      constructor <;> linarith
    linarith

end Binary64
end DeskCalculator
