import Mathlib.Data.Int.Log
import Mathlib.Data.Rat.Floor
import Mathlib.Tactic.FieldSimp
import Mathlib.Tactic.Positivity
import DeskCalculator.Proofs.Binary64.Packing

/-!
# Rounding what needs no rounding

The last bit of a ratio of natural numbers is found from its binary logarithm
(`log2Ratio_eq_log`).  So a ratio that is the exact value of a canonical mantissa and
exponent is rounded to this mantissa and exponent (`nearest_of_eq`), and a double is
the nearest one to its own value.  Nor does rounding change a ratio with a mantissa of at
most 53 bits (`exists_nearest`).
-/

namespace DeskCalculator
namespace Binary64

open Float.Model.UnpackedFloat (Sign)

variable {num den m : Nat} {e : Int}

/-! ## The logarithm of a ratio -/

/-- A power of two compared with a ratio, without fractions. -/
theorem zpow_le_div_iff (hden : 0 < den) (k : Int) :
    (2 : ℚ) ^ k ≤ num / den ↔ den * 2 ^ k.toNat ≤ num * 2 ^ (-k).toNat := by
  have hden' : (0 : ℚ) < den := by exact_mod_cast hden
  rw [le_div_iff₀ hden']
  obtain ⟨n, rfl | rfl⟩ := Int.eq_nat_or_neg k
  · have hzero : (-(n : Int)).toNat = 0 := by omega
    rw [zpow_natCast, Int.toNat_natCast, hzero, pow_zero, mul_one, mul_comm]
    exact_mod_cast Iff.rfl
  · have hzero : (-(n : Int)).toNat = 0 := by omega
    have hpow : (0 : ℚ) < 2 ^ n := by positivity
    rw [zpow_neg, zpow_natCast, neg_neg, Int.toNat_natCast, hzero, pow_zero, mul_one,
      inv_mul_le_iff₀ hpow, mul_comm]
    exact_mod_cast Iff.rfl

/-- A number other than zero lies between two powers of two. -/
theorem zpow_log2_bounds (hnum : 0 < num) :
    (2 : ℚ) ^ (num.log2 : Int) ≤ num ∧ (num : ℚ) < 2 ^ (num.log2 + 1 : Int) := by
  have hle : 2 ^ num.log2 ≤ num := Nat.log2_self_le (Nat.ne_of_gt hnum)
  have hlt : num < 2 ^ (num.log2 + 1) := Nat.lt_log2_self
  constructor
  · rw [zpow_natCast]
    exact_mod_cast hle
  · have hcast : (num.log2 + 1 : Int) = ((num.log2 + 1 : Nat) : Int) := by omega
    rw [hcast, zpow_natCast]
    exact_mod_cast hlt

/-- The lengths of the two numbers determine the logarithm up to one. -/
theorem log_div_mem (hnum : 0 < num) (hden : 0 < den) :
    (num.log2 : Int) - den.log2 - 1 ≤ Int.log 2 (num / den : ℚ) ∧
      Int.log 2 (num / den : ℚ) ≤ (num.log2 : Int) - den.log2 := by
  have hpos : (0 : ℚ) < num / den := by positivity
  have hden' : (0 : ℚ) < den := by exact_mod_cast hden
  obtain ⟨hnumle, hnumlt⟩ := zpow_log2_bounds hnum
  obtain ⟨hdenle, hdenlt⟩ := zpow_log2_bounds hden
  constructor
  · rw [← Int.zpow_le_iff_le_log (by decide) hpos]
    have hexponent : (num.log2 : Int) - den.log2 - 1 = num.log2 - (den.log2 + 1) := by omega
    calc ((2 : Nat) : ℚ) ^ ((num.log2 : Int) - den.log2 - 1)
        = 2 ^ (num.log2 : Int) / 2 ^ (den.log2 + 1 : Int) := by
          rw [hexponent, Nat.cast_ofNat, zpow_sub₀ (by decide)]
      _ ≤ num / den := by gcongr
  · have hlog : Int.log 2 (num / den : ℚ) < (num.log2 : Int) - den.log2 + 1 := by
      rw [← Int.lt_zpow_iff_log_lt (by decide) hpos]
      have hexponent : (num.log2 : Int) - den.log2 + 1 = (num.log2 + 1) - den.log2 := by omega
      have hpow : (0 : ℚ) < 2 ^ (den.log2 : Int) := zpow_pos (by decide) _
      have hpow' : (0 : ℚ) < 2 ^ (num.log2 + 1 : Int) := zpow_pos (by decide) _
      calc (num / den : ℚ) < 2 ^ (num.log2 + 1 : Int) / 2 ^ (den.log2 : Int) :=
            div_lt_div₀ hnumlt hdenle hpow'.le hpow
        _ = ((2 : Nat) : ℚ) ^ ((num.log2 : Int) - den.log2 + 1) := by
          rw [hexponent, Nat.cast_ofNat, zpow_sub₀ (by decide)]
    omega

/-- The binary logarithm of a ratio, rounded down. -/
theorem log2Ratio_eq_log (hnum : 0 < num) (hden : 0 < den) :
    log2Ratio num den = Int.log 2 (num / den : ℚ) := by
  have hpos : (0 : ℚ) < num / den := by positivity
  obtain ⟨hle, hge⟩ := log_div_mem hnum hden
  have hiff := Int.zpow_le_iff_le_log (b := 2) (by decide) hpos
    (x := (num.log2 : Int) - den.log2)
  rw [log2Ratio]
  split
  · rename_i hguess
    have hzpow := (zpow_le_div_iff hden _).2 hguess
    have hlog := hiff.1 (by exact_mod_cast hzpow)
    omega
  · rename_i hguess
    have hzpow := mt (zpow_le_div_iff hden _).1 hguess
    have hlog := mt hiff.2 (by exact_mod_cast hzpow)
    omega

/-! ## Exact values -/

theorem roundHalfEven_mul (hden : 0 < den) (m : Nat) : roundHalfEven (den * m) den = m := by
  rw [roundHalfEven, Nat.mul_div_cancel_left m hden, Nat.mul_mod_right]
  simp [hden]

theorem nearest_zero (s : Sign) {den : Nat} (hden : 0 < den) :
    nearest s 0 den = ofParts (.zero s) := by
  have hscale : 0 < den * 2 ^ (lastBit 0 den).toNat := Nat.mul_pos hden (Nat.two_pow_pos _)
  have hmantissa : roundHalfEven (0 * 2 ^ (-lastBit 0 den).toNat)
      (den * 2 ^ (lastBit 0 den).toNat) = 0 := by
    rw [Nat.zero_mul]
    exact roundHalfEven_mul hscale 0
  rw [nearest]
  exact dif_pos hmantissa

/-- The value of a mantissa and an exponent, with and without fractions. -/
theorem div_eq_mul_zpow_iff (hden : 0 < den) :
    (num / den : ℚ) = m * 2 ^ e ↔ num * 2 ^ (-e).toNat = den * 2 ^ e.toNat * m := by
  have hden' : (den : ℚ) ≠ 0 := by exact_mod_cast Nat.ne_of_gt hden
  rw [div_eq_iff hden']
  obtain ⟨n, rfl | rfl⟩ := Int.eq_nat_or_neg e
  · have hzero : (-(n : Int)).toNat = 0 := by omega
    rw [hzero, Int.toNat_natCast, Nat.pow_zero, Nat.mul_one, zpow_natCast,
      show (m : ℚ) * 2 ^ n * den = den * 2 ^ n * m by ring]
    exact_mod_cast Iff.rfl
  · have hzero : (-(n : Int)).toNat = 0 := by omega
    have hpow : (2 : ℚ) ^ n ≠ 0 := pow_ne_zero n (by decide)
    rw [hzero, neg_neg, Int.toNat_natCast, Nat.pow_zero, Nat.mul_one, zpow_neg, zpow_natCast,
      show (m : ℚ) * (2 ^ n)⁻¹ * den = den * m / 2 ^ n by ring, eq_div_iff hpow]
    exact_mod_cast Iff.rfl

/-- The binary logarithm of the value of a mantissa and an exponent. -/
theorem log_mul_zpow (hm : 0 < m) : Int.log 2 (m * 2 ^ e : ℚ) = m.log2 + e := by
  have htwo : (2 : ℚ) ≠ 0 := by decide
  have hpow : (0 : ℚ) < 2 ^ e := zpow_pos (by decide) e
  have hpos : (0 : ℚ) < m * 2 ^ e := mul_pos (by exact_mod_cast hm) hpow
  obtain ⟨hle, hlt⟩ := zpow_log2_bounds hm
  have hlow : ((2 : Nat) : ℚ) ^ (m.log2 + e : Int) ≤ m * 2 ^ e := by
    rw [Nat.cast_ofNat, zpow_add₀ htwo]
    exact mul_le_mul_of_nonneg_right hle hpow.le
  have hhigh : (m * 2 ^ e : ℚ) < ((2 : Nat) : ℚ) ^ (m.log2 + 1 + e : Int) := by
    rw [Nat.cast_ofNat, zpow_add₀ htwo]
    exact mul_lt_mul_of_pos_right hlt hpow
  have hge := (Int.zpow_le_iff_le_log (by decide) hpos).1 hlow
  have hsucc := (Int.lt_zpow_iff_log_lt (by decide) hpos).1 hhigh
  omega

/-- The last bit of the value of canonical parts is that of the mantissa. -/
theorem lastBit_of_eq (hc : Canonical m e) (hm : 0 < m) (hden : 0 < den)
    (h : num * 2 ^ (-e).toNat = den * 2 ^ e.toNat * m) : lastBit num den = e := by
  have hnum : 0 < num := by
    refine Nat.pos_of_ne_zero ?_
    rintro rfl
    have hpos : 0 < den * 2 ^ e.toNat * m := Nat.mul_pos (Nat.mul_pos hden (Nat.two_pow_pos _)) hm
    omega
  have hlog : log2Ratio num den = m.log2 + e := by
    rw [log2Ratio_eq_log hnum hden, (div_eq_mul_zpow_iff hden).2 h, log_mul_zpow hm]
  have hlt : m.log2 < 53 := (Nat.log2_lt (Nat.ne_of_gt hm)).2 hc.lt
  have hle := hc.le
  rw [lastBit, hlog]
  rcases hc.normal with hnormal | hleast
  · have hbits : 52 ≤ m.log2 := (Nat.le_log2 (Nat.ne_of_gt hm)).2 hnormal
    omega
  · omega

/-- **A ratio that is the value of canonical parts is not changed by rounding.** -/
theorem nearest_of_eq (s : Sign) (hc : Canonical m e) (hm : 0 < m) (hden : 0 < den)
    (h : num * 2 ^ (-e).toNat = den * 2 ^ e.toNat * m) :
    nearest s num den = ofParts (.finite s m e hm) := by
  have hscale : 0 < den * 2 ^ e.toNat := Nat.mul_pos hden (Nat.two_pow_pos _)
  have hmantissa : roundHalfEven (num * 2 ^ (-e).toNat) (den * 2 ^ e.toNat) = m := by
    rw [h, roundHalfEven_mul hscale]
  have hne : m ≠ 2 ^ (53 : Nat) := Nat.ne_of_lt hc.lt
  unfold nearest
  rw [lastBit_of_eq hc hm hden h]
  dsimp only
  rw [hmantissa, dif_neg (Nat.ne_of_gt hm), if_neg hne]

/-! ## Mantissas of few bits -/

/-- A mantissa of at most 53 bits is shifted to the left until it is canonical. -/
theorem exists_canonical (hm : 0 < m) (hlt : m < 2 ^ (53 : Nat)) (he : -1074 ≤ e) :
    ∃ m' e', Canonical m' e' ∧ 0 < m' ∧ e' ≤ e ∧ (m' * 2 ^ e' : ℚ) = m * 2 ^ e := by
  have hlog : m.log2 < 53 := (Nat.log2_lt (Nat.ne_of_gt hm)).2 hlt
  have hlow : 2 ^ m.log2 ≤ m := Nat.log2_self_le (Nat.ne_of_gt hm)
  have hhigh : m < 2 ^ (m.log2 + 1) := Nat.lt_log2_self
  -- the shift ends at the least exponent
  obtain ⟨k, hk⟩ : ∃ k : Nat, (k : Int) = min (52 - (m.log2 : Int)) (e + 1074) :=
    ⟨(min (52 - (m.log2 : Int)) (e + 1074)).toNat, Int.toNat_of_nonneg (by omega)⟩
  have hbits : m.log2 + 1 + k ≤ 53 := by omega
  refine ⟨m * 2 ^ k, e - k, ⟨?_, by omega, ?_⟩, Nat.mul_pos hm (Nat.two_pow_pos k), by omega, ?_⟩
  · calc m * 2 ^ k < 2 ^ (m.log2 + 1) * 2 ^ k :=
          Nat.mul_lt_mul_of_pos_right hhigh (Nat.two_pow_pos k)
      _ = 2 ^ (m.log2 + 1 + k) := (Nat.pow_add 2 _ k).symm
      _ ≤ 2 ^ (53 : Nat) := Nat.pow_le_pow_right (by decide) hbits
  · by_cases hleast : e - k = -1074
    · exact Or.inr hleast
    · left
      have hall : 52 = m.log2 + k := by omega
      calc 2 ^ (52 : Nat) = 2 ^ m.log2 * 2 ^ k := by rw [hall, Nat.pow_add]
        _ ≤ m * 2 ^ k := Nat.mul_le_mul_right _ hlow
  · rw [zpow_sub₀ (by decide), zpow_natCast]
    push_cast
    field_simp

/-- **A ratio with a mantissa of at most 53 bits is not changed by rounding.** -/
theorem exists_nearest (s : Sign) (hm : 0 < m) (hlt : m < 2 ^ (53 : Nat)) (he : -1074 ≤ e)
    (hden : 0 < den) (h : (num / den : ℚ) = m * 2 ^ e) :
    ∃ m' e', ∃ hm' : 0 < m', Canonical m' e' ∧ e' ≤ e ∧ (m' * 2 ^ e' : ℚ) = m * 2 ^ e ∧
      nearest s num den = ofParts (.finite s m' e' hm') := by
  obtain ⟨m', e', hc, hm', hle, hvalue⟩ := exists_canonical hm hlt he
  refine ⟨m', e', hm', hc, hle, hvalue, ?_⟩
  exact nearest_of_eq s hc hm' hden ((div_eq_mul_zpow_iff hden).1 (h.trans hvalue.symm))

end Binary64
end DeskCalculator
