import DeskCalculator.Arithmetic
import DeskCalculator.Proofs.Binary64.Operations

/-!
# The floored remainder

The remainder of a division whose quotient drops its fraction is a double itself, at
whatever distance the two operands are: on the smaller of their two scales it has no more
bits than one of them (`value?_truncatedRemainder`).  It differs from the floored remainder
exactly where it has not the sign of the divisor, and then by one divisor
(`corrects_iff`, `sub_mul_floor_eq`).  So the addition that corrects it is all that is
rounded, and the result is the nearest double (`modulo_nearest`).
-/

namespace DeskCalculator

open Float.Model.UnpackedFloat (Sign)

namespace Arithmetic

open Binary64 (Canonical parts value? signed IsNearest)

variable {a b : Float} {p q r : ℚ}

/-! ## The truncated remainder -/

theorem apply_tmod_apply (s t : Sign) (m n : Nat) :
    (s.apply (m : Int)).tmod (t.apply n) = s.apply ((m % n : Nat) : Int) := by
  cases s with
  | positive =>
    cases t with
    | positive => rfl
    | negative => exact Int.tmod_neg m n
  | negative =>
    cases t with
    | positive => exact Int.neg_tmod m n
    | negative => exact (Int.neg_tmod m (-n)).trans (congrArg Neg.neg (Int.tmod_neg m n))

/-- Integers on a common scale are divided as they are, the quotient dropping its fraction. -/
theorem signed_eq_mul_add (s t : Sign) (m n : Nat) (k : Int) :
    signed s (m * 2 ^ k) = signed t (n * 2 ^ k) * (s.apply m).tdiv (t.apply n) +
      signed s ((m % n : Nat) * 2 ^ k) := by
  have hsplit := Int.mul_tdiv_add_tmod (s.apply m) (t.apply n)
  rw [apply_tmod_apply] at hsplit
  simp only [Binary64.signed_mul, Binary64.signed_natCast]
  rw [mul_right_comm, ← add_mul]
  exact_mod_cast congrArg (fun i : Int => (i : ℚ) * 2 ^ k) hsplit.symm

theorem abs_signed_mod_lt (s t : Sign) (m : Nat) {n : Nat} (hn : 0 < n) (k : Int) :
    |signed s ((m % n : Nat) * 2 ^ k)| < |signed t (n * 2 ^ k)| := by
  have hpow : (0 : ℚ) < 2 ^ k := zpow_pos (by norm_num) k
  rw [Binary64.abs_signed, Binary64.abs_signed, abs_of_nonneg (by positivity),
    abs_of_nonneg (by positivity)]
  exact mul_lt_mul_of_pos_right (by exact_mod_cast Nat.mod_lt m hn) hpow

theorem signed_mul_signed_nonneg (s : Sign) (m n : Nat) (k : Int) :
    0 ≤ signed s (m * 2 ^ k) * signed s (n * 2 ^ k) := by
  have hnonneg (i : Nat) : (0 : ℚ) ≤ i * 2 ^ k :=
    mul_nonneg (Nat.cast_nonneg i) (zpow_nonneg (by norm_num) k)
  cases s with
  | positive => exact mul_nonneg (hnonneg m) (hnonneg n)
  | negative =>
    rw [signed, signed, neg_mul_neg]
    exact mul_nonneg (hnonneg m) (hnonneg n)

/-- On the common scale one of the two mantissas is as it was, and bounds the remainder. -/
theorem mod_lt_of_canonical {m n : Nat} {e f k : Int} (hk : k = min e f)
    (hm : Canonical m e) (hn : Canonical n f) (hpos : 0 < n) :
    m * 2 ^ (e - k).toNat % (n * 2 ^ (f - k).toNat) < 2 ^ (53 : Nat) := by
  rcases le_total e f with hef | hfe
  · have hscale : (e - k).toNat = 0 := by omega
    rw [hscale, Nat.pow_zero, Nat.mul_one]
    exact (Nat.mod_le m _).trans_lt hm.lt
  · have hscale : (f - k).toNat = 0 := by omega
    rw [hscale, Nat.pow_zero, Nat.mul_one]
    exact (Nat.mod_lt _ hpos).trans hn.lt

/-- **The truncated remainder is exact**: the dividend less a whole multiple of the divisor,
smaller than the divisor, and zero or of the sign of the dividend. -/
theorem value?_truncatedRemainder (ha : value? a = some p) (hb : value? b = some q)
    (hq : q ≠ 0) :
    ∃ (r : ℚ) (c : Int), value? (truncatedRemainder a b) = some r ∧ p = q * c + r ∧
      |r| < |q| ∧ 0 ≤ r * p := by
  rcases Binary64.parts_of_value? hb with ⟨t, hpb, rfl⟩ | ⟨t, n, f, hn, hpb, hcb, rfl⟩
  · exact absurd rfl hq
  rcases Binary64.parts_of_value? ha with ⟨s, hpa, rfl⟩ | ⟨s, m, e, hm, hpa, hca, rfl⟩
  · refine ⟨0, 0, ?_, by simp, ?_, by simp⟩
    · rw [truncatedRemainder, hpa, hpb]
      exact ha
    · rw [abs_zero]
      exact abs_pos.2 hq
  · have hle := hca.le
    have hle' := hcb.le
    have he := Binary64.le_of_parts hpa
    obtain ⟨k, hk⟩ : ∃ k, k = min e f := ⟨_, rfl⟩
    -- on the common scale both operands are integers
    obtain ⟨i, hi⟩ : ∃ i : Nat, i = m * 2 ^ (e - k).toNat := ⟨_, rfl⟩
    obtain ⟨j, hj⟩ : ∃ j : Nat, j = n * 2 ^ (f - k).toNat := ⟨_, rfl⟩
    have hjpos : 0 < j := hj ▸ Binary64.scaled_pos hn (f - k)
    have hlt : i % j < 2 ^ (53 : Nat) := by
      rw [hi, hj]
      exact mod_lt_of_canonical hk hca hcb hn
    have hvalue := Binary64.value?_nearest_of_lt s (e := k) hlt (by omega) (by omega)
    have hdividend : signed s (m * 2 ^ e) = signed s (i * 2 ^ k) := by
      rw [hi, Binary64.cast_mul_two_pow_mul_zpow m (by omega)]
    have hdivisor : signed t (n * 2 ^ f) = signed t (j * 2 ^ k) := by
      rw [hj, Binary64.cast_mul_two_pow_mul_zpow n (by omega)]
    rw [hdividend, hdivisor]
    refine ⟨signed s ((i % j : Nat) * 2 ^ k), (s.apply i).tdiv (t.apply j), ?_,
      signed_eq_mul_add s t i j k, abs_signed_mod_lt s t i hjpos k,
      signed_mul_signed_nonneg s (i % j) i k⟩
    rw [truncatedRemainder, hpa, hpb]
    dsimp only
    rw [← hk, ← hi, ← hj]
    exact hvalue

/-! ## The floored remainder -/

/-- The floored remainder is a part of the divisor. -/
theorem sub_mul_floor_eq_mul_fract (hq : q ≠ 0) :
    p - q * ⌊p / q⌋ = q * Int.fract (p / q) := by
  rw [Int.fract, mul_sub, mul_div_cancel₀ _ hq]

/-- What is left of the dividend, if it is less than the divisor and has its sign, is the
floored remainder. -/
theorem sub_mul_floor_eq {c : Int} (hq : q ≠ 0) (h : p = q * c + r) (hnonneg : 0 ≤ r / q)
    (hlt : r / q < 1) : p - q * ⌊p / q⌋ = r := by
  have hquotient : p / q = c + r / q := by
    rw [h, add_div, mul_div_cancel_left₀ _ hq]
  rw [sub_mul_floor_eq_mul_fract hq, hquotient, Int.fract_intCast_add,
    Int.fract_eq_self.2 ⟨hnonneg, hlt⟩, mul_div_cancel₀ _ hq]

/-- The floored remainder is not greater than the divisor. -/
theorem abs_sub_mul_floor_le (hq : q ≠ 0) : |p - q * ⌊p / q⌋| ≤ |q| := by
  rw [sub_mul_floor_eq_mul_fract hq, abs_mul, abs_of_nonneg (Int.fract_nonneg (p / q))]
  exact mul_le_of_le_one_right (abs_nonneg q) (Int.fract_lt_one _).le

/-- A remainder is corrected exactly where it is not zero and has the other sign. -/
theorem corrects_iff (hr : value? a = some r) (hb : value? b = some q) (hq : q ≠ 0) :
    (a != 0 && decide (a < 0) != decide (b < 0)) = true ↔ r / q < 0 := by
  have hzero := Binary64.beq_iff hr Binary64.value?_zero
  have hneg := Binary64.lt_iff hr Binary64.value?_zero
  have hneg' := Binary64.lt_iff hb Binary64.value?_zero
  rw [Bool.and_eq_true, bne, Bool.not_eq_true', Bool.eq_false_iff, ne_eq, hzero, bne_iff_ne,
    ne_eq, decide_eq_decide, hneg, hneg', div_neg_iff]
  grind

/-- A modulo is a truncated remainder, or one corrected by an addition, which is rounded. -/
theorem exists_modulo (ha : value? a = some p) (hb : value? b = some q) (hq : q ≠ 0) :
    ∃ x, modulo a b = .ok x ∧ IsNearest x (p - q * ⌊p / q⌋) := by
  have hdivisor : ¬ b == 0 := by rwa [Binary64.beq_iff hb Binary64.value?_zero]
  obtain ⟨r, c, hr, hsplit, hlt, -⟩ := value?_truncatedRemainder ha hb hq
  have hbound : |r / q| < 1 := by rwa [abs_div, div_lt_one (abs_pos.2 hq)]
  obtain ⟨hlow, hhigh⟩ := abs_lt.1 hbound
  have hcorrects := corrects_iff hr hb hq
  rw [modulo, if_neg hdivisor]
  by_cases hneg : r / q < 0
  · have hquotient : (r + q) / q = r / q + 1 := by rw [add_div, div_self hq]
    have hsplit' : p = q * ((c - 1 : Int) : ℚ) + (r + q) := by
      rw [hsplit, Int.cast_sub, Int.cast_one]
      ring
    have hfloored := sub_mul_floor_eq hq hsplit' (by linarith) (by linarith)
    have hrounds := Binary64.rounds_add hr hb
    rw [← hfloored] at hrounds
    refine ⟨_, if_pos (hcorrects.2 hneg), hrounds.isNearest (hrounds.isFinite ?_)⟩
    exact (abs_sub_mul_floor_le hq).trans (Binary64.abs_le_greatest hb)
  · refine ⟨_, if_neg (mt hcorrects.1 hneg), ?_⟩
    rw [sub_mul_floor_eq hq hsplit (not_lt.1 hneg) hhigh]
    exact Binary64.isNearest_of_value? hr

/-- **The modulo of two doubles is the floored remainder, rounded once.**  It is zero or has
the sign of the divisor, and its magnitude is at most that of the divisor, which rounding can
reach. -/
theorem modulo_nearest (ha : value? a = some p) (hb : value? b = some q) (hq : q ≠ 0) :
    ∃ x v, modulo a b = .ok x ∧ value? x = some v ∧ IsNearest x (p - q * ⌊p / q⌋) ∧
      (v = 0 ∨ (0 < v ↔ 0 < q)) ∧ |v| ≤ |q| := by
  obtain ⟨x, hx, hnearest⟩ := exists_modulo ha hb hq
  obtain ⟨v, hv⟩ := hnearest.exists_value?
  refine ⟨x, v, hx, hv, hnearest, ?_⟩
  have hfract := Int.fract_nonneg (p / q)
  have hfract' := (Int.fract_lt_one (p / q)).le
  rw [sub_mul_floor_eq_mul_fract hq] at hnearest
  rcases lt_or_gt_of_ne hq with hneg | hpos
  · have hle := hnearest.le_of_le hv Binary64.value?_zero
      (mul_nonpos_of_nonpos_of_nonneg hneg.le hfract)
    have hge := hnearest.ge_of_ge hv hb (le_mul_of_le_one_right hneg.le hfract')
    rw [abs_of_nonpos hle, abs_of_neg hneg]
    exact ⟨Or.inr (iff_of_false hle.not_gt hneg.not_gt), neg_le_neg hge⟩
  · have hge := hnearest.ge_of_ge hv Binary64.value?_zero (mul_nonneg hpos.le hfract)
    have hle := hnearest.le_of_le hv hb (mul_le_of_le_one_right hpos.le hfract')
    rw [abs_of_nonneg hge, abs_of_pos hpos]
    exact ⟨hge.eq_or_lt.imp Eq.symm fun hv' => iff_of_true hv' hpos, hle⟩

/-- The exact remainder `1e17 - 1` is not a double, and rounding gives the divisor itself. -/
theorem modulo_neg_one_1e17 :
    modulo (-1) 1e17 = .ok 1e17 ∧
      ∃ x v, modulo (-1) 1e17 = .ok x ∧ value? x = some v ∧
        IsNearest x ((-1 : Int) - (10 ^ 17 : Int) * ⌊((-1 : Int) / (10 ^ 17 : Int) : ℚ)⌋) ∧
        (v = 0 ∨ (0 < v ↔ 0 < ((10 ^ 17 : Int) : ℚ))) ∧ |v| ≤ |((10 ^ 17 : Int) : ℚ)| := by
  have hdividend : value? (-1) = some ((-1 : Int) : ℚ) :=
    (Binary64.value?_eq_intCast_iff _ _).2 (by decide +kernel)
  have hdivisor : value? 1e17 = some ((10 ^ 17 : Int) : ℚ) :=
    (Binary64.value?_eq_intCast_iff _ _).2 (by decide +kernel)
  exact ⟨by decide +kernel, modulo_nearest hdividend hdivisor (by norm_num)⟩

end Arithmetic
end DeskCalculator
