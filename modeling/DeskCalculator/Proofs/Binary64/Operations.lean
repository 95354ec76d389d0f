import Mathlib.Algebra.Order.Floor.Semifield
import DeskCalculator.Proofs.Binary64.Nearest

/-!
# Operations round once

Sum, difference, product and quotient of finite doubles are the exact result, rounded
once (`rounds_add`, `rounds_sub`, `rounds_mul`, `rounds_div`).  The logical model of these
operations keeps two bits behind the mantissa, which are all that a ratio has to be
remembered by (`extended`), and then drops bits; this is the rounding of a ratio
(`rounds_roundWithAccuracy`).  What is a double is not rounded, so arithmetic on natural
numbers is exact up to `2 ^ 53` (`value?_add_natCast`, `value?_sub_natCast`).
-/

namespace DeskCalculator
namespace Binary64

open Float.Model (UnpackedFloat totalExponent)
open Float.Model.Format (binary64)
open Float.Model.UnpackedFloat (Sign ExtendedMantissa Accuracy accuracyOfFraction
  roundWithAccuracy shiftToExponent shiftToTargetExponent decreaseExponent)

variable {num den n d m : Nat} {e : Int}

/-! ## Two bits behind the mantissa -/

/-- A ratio cut off to an integer, with the bit of a half and a bit for everything below. -/
def extended (n d : Nat) : ExtendedMantissa where
  mantissa := n / d
  roundBit := decide (d ≤ 2 * (n % d))
  stickyBit := decide (2 * (n % d) ≠ 0 ∧ 2 * (n % d) ≠ d)

/-- The two bits decide how the ratio is rounded. -/
theorem roundedMantissa_extended (hd : 0 < d) :
    (extended n d).roundedMantissa = roundHalfEven n d := by
  have hlt := Nat.mod_lt n hd
  rw [ExtendedMantissa.roundedMantissa, extended, roundHalfEven]
  rcases Nat.lt_trichotomy (2 * (n % d)) d with hless | hhalf | hmore
  · have hround : ¬ d ≤ 2 * (n % d) := by omega
    by_cases hzero : 2 * (n % d) = 0
    · simp [hzero, hd, hd.ne', ExtendedMantissa.accuracy, Accuracy.roundToNearestEven]
    · simp [hround, hzero, hless, hless.ne, ExtendedMantissa.accuracy,
        Accuracy.roundToNearestEven]
  · have hround : d ≤ 2 * (n % d) := by omega
    simp [hhalf, ExtendedMantissa.accuracy, Accuracy.roundToNearestEven]
  · have hround : d ≤ 2 * (n % d) := by omega
    have hzero : 2 * (n % d) ≠ 0 := by omega
    simp [hround, hzero, hmore, hmore.ne', Nat.not_lt.2 hmore.le,
      ExtendedMantissa.accuracy, Accuracy.roundToNearestEven]

theorem shiftRightOne_extended (hd : 0 < d) :
    (extended n d).shiftRightOne = extended n (d * 2) := by
  have hlt := Nat.mod_lt n hd
  have hmod : n % (d * 2) = n % d + d * (n / d % 2) := Nat.mod_mul
  have hmantissa : n / d / 2 = n / (d * 2) := Nat.div_div_eq_div_mul n d 2
  have hround : (n / d % 2 != 0) = decide (d * 2 ≤ 2 * (n % (d * 2))) := by
    rw [hmod, Bool.eq_iff_iff, bne_iff_ne, decide_eq_true_iff]
    rcases Nat.mod_two_eq_zero_or_one (n / d) with h | h <;> rw [h] <;> omega
  have hsticky : (decide (d ≤ 2 * (n % d)) || decide (2 * (n % d) ≠ 0 ∧ 2 * (n % d) ≠ d)) =
      decide (2 * (n % (d * 2)) ≠ 0 ∧ 2 * (n % (d * 2)) ≠ d * 2) := by
    rw [hmod, Bool.eq_iff_iff, Bool.or_eq_true, decide_eq_true_iff, decide_eq_true_iff,
      decide_eq_true_iff]
    rcases Nat.mod_two_eq_zero_or_one (n / d) with h | h <;> rw [h] <;> omega
  rw [ExtendedMantissa.shiftRightOne, extended, extended, hmantissa, hround, hsticky]

/-- Dropping bits divides the ratio. -/
theorem shiftRight_extended (hd : 0 < d) (k : Nat) :
    extended n d >>> k = extended n (d * 2 ^ k) := by
  show k.repeat ExtendedMantissa.shiftRightOne (extended n d) = _
  induction k with
  | zero => rw [Nat.pow_zero, Nat.mul_one]; rfl
  | succ k ih =>
    rw [Nat.repeat, ih, shiftRightOne_extended (Nat.mul_pos hd (Nat.two_pow_pos k)),
      Nat.mul_assoc, Nat.pow_succ]

theorem ofMantissaAndAccuracy_exact (m : Nat) :
    ExtendedMantissa.ofMantissaAndAccuracy m .exact = extended m 1 := by
  simp [ExtendedMantissa.ofMantissaAndAccuracy, extended, Nat.mod_one]

theorem ofMantissaAndAccuracy_div (hd : 0 < d) :
    ExtendedMantissa.ofMantissaAndAccuracy (n / d) (accuracyOfFraction (n % d) d) =
      extended n d := by
  rw [accuracyOfFraction, extended]
  by_cases hzero : n % d = 0
  · simp [hzero, hd.ne', ExtendedMantissa.ofMantissaAndAccuracy]
  rw [if_neg hzero]
  rcases Nat.lt_trichotomy (2 * (n % d)) d with hless | hhalf | hmore
  · rw [Nat.compare_eq_lt.2 hless]
    simp [ExtendedMantissa.ofMantissaAndAccuracy, hzero, hless, hless.ne]
  · rw [Nat.compare_eq_eq.2 hhalf]
    simp [ExtendedMantissa.ofMantissaAndAccuracy, hhalf]
  · rw [Nat.compare_eq_gt.2 hmore]
    simp [ExtendedMantissa.ofMantissaAndAccuracy, hzero, hmore.le, hmore.ne']

/-! ## Rounding a ratio -/

theorem roundHalfEven_mul_right (num den : Nat) {k : Nat} (hk : 0 < k) :
    roundHalfEven (num * k) (den * k) = roundHalfEven num den := by
  have hless : 2 * (num % den * k) < den * k ↔ 2 * (num % den) < den := by
    rw [← Nat.mul_assoc, Nat.mul_lt_mul_right hk]
  have hmore : den * k < 2 * (num % den * k) ↔ den < 2 * (num % den) := by
    rw [← Nat.mul_assoc, Nat.mul_lt_mul_right hk]
  simp only [roundHalfEven, Nat.mul_div_mul_right _ _ hk, Nat.mul_mod_mul_right, hless, hmore]

/-- Rounding depends on the ratio alone. -/
theorem roundHalfEven_congr (hden : 0 < den) (hd : 0 < d) (h : (num / den : ℚ) = n / d) :
    roundHalfEven num den = roundHalfEven n d := by
  have hden' : (den : ℚ) ≠ 0 := by exact_mod_cast hden.ne'
  have hd' : (d : ℚ) ≠ 0 := by exact_mod_cast hd.ne'
  have hcross : num * d = n * den := by
    rw [div_eq_div_iff hden' hd'] at h
    exact_mod_cast h
  rw [← roundHalfEven_mul_right num den hd, ← roundHalfEven_mul_right n d hden, hcross,
    Nat.mul_comm den d]

theorem log_mul_two_zpow {q : ℚ} (hq : 0 < q) (k : Int) :
    Int.log 2 (q * 2 ^ k) = Int.log 2 q + k := by
  have hpow : (0 : ℚ) < 2 ^ k := zpow_pos (by norm_num) k
  have hpos : 0 < q * 2 ^ k := mul_pos hq hpow
  have hlow : ((2 : Nat) : ℚ) ^ (Int.log 2 q + k) ≤ q * 2 ^ k := by
    rw [Nat.cast_ofNat, zpow_add₀ (by norm_num)]
    refine mul_le_mul_of_nonneg_right ?_ hpow.le
    exact_mod_cast Int.zpow_log_le_self (b := 2) (by decide) hq
  have hhigh : q * 2 ^ k < ((2 : Nat) : ℚ) ^ (Int.log 2 q + 1 + k) := by
    rw [Nat.cast_ofNat, zpow_add₀ (by norm_num)]
    refine mul_lt_mul_of_pos_right ?_ hpow
    exact_mod_cast Int.lt_zpow_succ_log_self (b := 2) (by decide) q
  have hge := (Int.zpow_le_iff_le_log (by decide) hpos).1 hlow
  have hsucc := (Int.lt_zpow_iff_log_lt (by decide) hpos).1 hhigh
  omega

/-- The logarithm of a ratio of at least one is that of its integer part. -/
theorem log_div_eq_log2 (hd : 0 < d) (hle : d ≤ n) :
    Int.log 2 (n / d : ℚ) = (n / d : Nat).log2 := by
  have hd' : (0 : ℚ) < d := by exact_mod_cast hd
  have hone : (1 : ℚ) ≤ n / d := by
    rw [le_div_iff₀ hd', one_mul]
    exact_mod_cast hle
  rw [Int.log_of_one_le_right 2 hone, Nat.floor_div_eq_div, Nat.log2_eq_log_two]

/-- A ratio of less than one has a negative logarithm. -/
theorem log_div_neg (hn : 0 < n) (hlt : n < d) : Int.log 2 (n / d : ℚ) < 0 := by
  have hd' : (0 : ℚ) < d := by exact_mod_cast hn.trans hlt
  have hpos : (0 : ℚ) < n / d := div_pos (by exact_mod_cast hn) hd'
  rw [← Int.lt_zpow_iff_log_lt (by decide) hpos, zpow_zero, div_lt_one hd']
  exact_mod_cast hlt

/-- A mantissa of 53 bits is not shifted. -/
theorem shiftToTargetExponent_of_lt (hm : m < 2 ^ (53 : Nat)) (he : -1074 ≤ e) :
    shiftToTargetExponent binary64 m e .exact = (extended m 1, e) := by
  have hlog : m.log2 < 53 := by
    by_cases hzero : m = 0
    · rw [hzero]
      decide
    · exact (Nat.log2_lt hzero).2 hm
  have htarget : (binary64.targetExponent (totalExponent m e) - e).toNat = 0 := by
    have hbits : (binary64.mantissaBits : Int) = 53 := rfl
    have hleast : binary64.minExponent = -1074 := rfl
    rw [Float.Model.Format.targetExponent, totalExponent, hbits, hleast]
    omega
  rw [shiftToTargetExponent, shiftToExponent, htarget, ofMantissaAndAccuracy_exact]
  exact congrArg (extended m 1, ·) (Int.add_zero e)

/-- A mantissa rounded up to 54 bits is shifted by one. -/
theorem shiftToTargetExponent_carry (he : -1074 ≤ e) :
    shiftToTargetExponent binary64 (2 ^ (53 : Nat)) e .exact =
      (extended (2 ^ (53 : Nat)) 2, e + 1) := by
  have htarget : (binary64.targetExponent (totalExponent (2 ^ (53 : Nat)) e) - e).toNat = 1 := by
    have hbits : (binary64.mantissaBits : Int) = 53 := rfl
    have hleast : binary64.minExponent = -1074 := rfl
    rw [Float.Model.Format.targetExponent, totalExponent, Nat.log2_two_pow, hbits, hleast]
    omega
  rw [shiftToTargetExponent, shiftToExponent, htarget, ofMantissaAndAccuracy_exact]
  exact congrArg (·, e + 1) (shiftRight_extended Nat.one_pos 1)

/-- The last bit that a double near a ratio times a power of two has. -/
def lastBitOf (n d : Nat) (e : Int) : Int :=
  max (Int.log 2 (n / d : ℚ) + e - 52) (-1074)

theorem lastBit_ratio (hn : 0 < n) (hd : 0 < d) (e : Int) :
    lastBit (n * 2 ^ e.toNat) (d * 2 ^ (-e).toNat) = lastBitOf n d e := by
  have hn' : (0 : ℚ) < n := by exact_mod_cast hn
  have hd' : (0 : ℚ) < d := by exact_mod_cast hd
  rw [lastBit, log2Ratio_eq_log (scaled_pos hn e) (scaled_pos hd (-e)), cast_ratio,
    log_mul_two_zpow (div_pos hn' hd'), lastBitOf]

/-- The last bit is found from the integer part, if there are enough bits. -/
theorem targetExponent_eq (hn : 0 < n) (hd : 0 < d) (he : e ≤ lastBitOf n d e) :
    binary64.targetExponent (totalExponent (n / d) e) = lastBitOf n d e := by
  have hbits : (binary64.mantissaBits : Int) = 53 := rfl
  have hleast : binary64.minExponent = -1074 := rfl
  rw [lastBitOf] at he ⊢
  rw [Float.Model.Format.targetExponent, totalExponent, hbits, hleast]
  by_cases hle : d ≤ n
  · rw [log_div_eq_log2 hd hle]
    omega
  · -- without an integer part the last bit is the least one
    have hlog := log_div_neg hn (not_le.1 hle)
    rw [Nat.div_eq_of_lt (not_le.1 hle), Nat.log2_zero]
    omega

/-- **Dropping bits behind the mantissa rounds the ratio**, if there are enough of them. -/
theorem rounds_roundWithAccuracy (s : Sign) {accuracy : Accuracy} (hn : 0 < n) (hd : 0 < d)
    (haccuracy : ExtendedMantissa.ofMantissaAndAccuracy (n / d) accuracy = extended n d)
    (he : e ≤ lastBitOf n d e) :
    Rounds (ofParts (roundWithAccuracy binary64 s (n / d) e accuracy))
      (signed s (n / d * 2 ^ e)) := by
  have hnum : 0 < n * 2 ^ e.toNat := scaled_pos hn e
  have hden : 0 < d * 2 ^ (-e).toNat := scaled_pos hd (-e)
  have htarget := targetExponent_eq hn hd he
  have hlast := lastBit_ratio hn hd e
  refine ⟨s, _, _, hden, by rw [cast_ratio], ?_⟩
  rw [← hlast] at htarget he
  have hvalue := cast_ratio n d e
  generalize n * 2 ^ e.toNat = num at *
  generalize d * 2 ^ (-e).toNat = den at *
  obtain ⟨k, hk⟩ := Int.eq_ofNat_of_zero_le (sub_nonneg.2 he)
  have hshift : shiftToTargetExponent binary64 (n / d) e accuracy =
      (extended n (d * 2 ^ k), lastBit num den) := by
    rw [shiftToTargetExponent, htarget, shiftToExponent, hk, haccuracy, Int.toNat_natCast,
      ← shiftRight_extended hd k]
    exact congrArg (_, ·) (by omega)
  have hmantissa : (extended n (d * 2 ^ k)).roundedMantissa = roundedMantissa num den := by
    have hpos := Nat.mul_pos hd (Nat.two_pow_pos k)
    rw [roundedMantissa_extended hpos, roundedMantissa]
    refine roundHalfEven_congr hpos (scaled_pos hden _) ?_
    have hlastBit : lastBit num den = e + k := by omega
    rw [cast_scaled_div, hvalue, hlastBit, zpow_add₀ (by norm_num), zpow_natCast]
    push_cast
    field_simp
  have hleast := neg_1074_le_lastBit num den
  rw [roundWithAccuracy, hshift]
  dsimp only
  rw [hmantissa]
  rcases Nat.lt_or_eq_of_le (roundedMantissa_le hnum hden) with hlt | hcarry
  · rw [shiftToTargetExponent_of_lt hlt hleast]
    have hone : (extended (roundedMantissa num den) 1).mantissa = roundedMantissa num den :=
      Nat.div_one _
    by_cases hzero : roundedMantissa num den = 0
    · rw [nearest_of_roundedMantissa_eq_zero s hzero]
      exact congrArg ofParts (dif_pos (hone.trans hzero))
    · rw [nearest_of_roundedMantissa_lt s (Nat.pos_of_ne_zero hzero) hlt]
      refine congrArg ofParts ((dif_neg (hone.trans_ne hzero)).trans ?_)
      exact finite_congr hone _ _
  · rw [nearest_of_roundedMantissa_carry s hcarry, hcarry, shiftToTargetExponent_carry hleast]
    rfl

/-! ## Rounding an exact result -/

theorem lastBitOf_one (hm : 0 < m) (e : Int) :
    lastBitOf m 1 e = max (m.log2 + e - 52) (-1074) := by
  rw [lastBitOf, log_div_eq_log2 Nat.one_pos hm, Nat.div_one]

/-- Bits are dropped from an exact result that has enough of them. -/
theorem rounds_exact (s : Sign) (hm : 0 < m) (he : e ≤ max (m.log2 + e - 52) (-1074)) :
    Rounds (ofParts (roundWithAccuracy binary64 s m e .exact)) (signed s (m * 2 ^ e)) := by
  rw [← lastBitOf_one hm e] at he
  have haccuracy : ExtendedMantissa.ofMantissaAndAccuracy (m / 1) .exact = extended m 1 := by
    rw [Nat.div_one]
    exact ofMantissaAndAccuracy_exact m
  have hround := rounds_roundWithAccuracy s hm Nat.one_pos haccuracy he
  rwa [Nat.div_one, Nat.cast_one, div_one] at hround

theorem log2_mul_two_pow (hm : 0 < m) (k : Nat) : (m * 2 ^ k).log2 = m.log2 + k := by
  induction k with
  | zero => rw [Nat.pow_zero, Nat.mul_one, Nat.add_zero]
  | succ k ih =>
    rw [Nat.pow_succ, ← Nat.mul_assoc, Nat.mul_comm, Nat.log2_two_mul, ih, Nat.add_assoc]
    exact (Nat.mul_pos hm (Nat.two_pow_pos k)).ne'

/-- Bits are added first where there are too few. -/
theorem rounds_round (s : Sign) (hm : 0 < m) (e : Int) :
    Rounds (ofParts (UnpackedFloat.round binary64 s m e)) (signed s (m * 2 ^ e)) := by
  have htarget : binary64.targetExponent (totalExponent m e) =
      max (m.log2 + e - 52) (-1074) := by
    have hbits : (binary64.mantissaBits : Int) = 53 := rfl
    have hleast : binary64.minExponent = -1074 := rfl
    rw [Float.Model.Format.targetExponent, totalExponent, hbits, hleast]
    omega
  obtain ⟨k, hk⟩ : ∃ k : Nat, (e - max (m.log2 + e - 52) (-1074)).toNat = k := ⟨_, rfl⟩
  have hlog := log2_mul_two_pow hm k
  have hvalue : ((m * 2 ^ k : Nat) * 2 ^ (e - k) : ℚ) = m * 2 ^ e := by
    rw [zpow_sub₀ (by norm_num), zpow_natCast]
    push_cast
    field_simp
  have hround := rounds_exact s (e := e - k)
    (Nat.mul_pos hm (Nat.two_pow_pos k)) (by rw [hlog]; omega)
  rw [hvalue] at hround
  rw [UnpackedFloat.round, htarget, decreaseExponent, hk, Nat.shiftLeft_eq]
  exact hround

theorem rounds_zero (s : Sign) : Rounds (ofParts (.zero s)) 0 := by
  refine ⟨s, 0, 1, Nat.one_pos, ?_, (nearest_zero s Nat.one_pos).symm⟩
  rw [Nat.cast_zero, zero_div, (signed_eq_zero_iff s 0).2 rfl]

theorem rounds_normalize (i : Int) (e : Int) (s : Sign) :
    Rounds (ofParts (UnpackedFloat.normalize binary64 i e s)) (i * 2 ^ e) := by
  rcases lt_trichotomy i 0 with hneg | rfl | hpos
  · obtain ⟨n, hn⟩ := Int.eq_ofNat_of_zero_le (neg_nonneg.2 hneg.le)
    obtain rfl : i = -(n : Int) := by omega
    rw [UnpackedFloat.normalize, compare_lt_iff_lt.2 hneg]
    have hround := rounds_round .negative (m := n) (by omega) e
    rw [signed, ← neg_mul] at hround
    rw [hn, Int.cast_neg, Int.cast_natCast]
    exact hround
  · rw [UnpackedFloat.normalize, compare_eq_iff_eq.2 rfl, Int.cast_zero, zero_mul]
    exact rounds_zero s
  · obtain ⟨n, rfl⟩ := Int.eq_ofNat_of_zero_le hpos.le
    rw [UnpackedFloat.normalize, compare_gt_iff_gt.2 hpos, Int.cast_natCast]
    exact rounds_round .positive (m := n) (by omega) e

/-! ## The four operations -/

variable {x y : Float} {a b : ℚ}

theorem rounds_finite (s : Sign) (hc : Canonical m e) (hm : 0 < m) :
    Rounds (ofParts (.finite s m e hm)) (signed s (m * 2 ^ e)) := by
  have hden : 0 < 1 * 2 ^ (-e).toNat := scaled_pos Nat.one_pos (-e)
  have hvalue := cast_ratio m 1 e
  rw [Nat.cast_one, div_one] at hvalue
  refine ⟨s, _, _, hden, by rw [hvalue], ?_⟩
  exact (nearest_of_eq s hc hm hden ((div_eq_mul_zpow_iff hden).1 hvalue)).symm

/-- A double is its own value, rounded. -/
theorem rounds_parts (h : value? x = some a) : Rounds (ofParts (parts x)) a := by
  rcases parts_of_value? h with ⟨s, hparts, rfl⟩ | ⟨s, m, e, hm, hparts, hc, rfl⟩
  · rw [hparts]
    exact rounds_zero s
  · rw [hparts]
    exact rounds_finite s hc hm

/-- On a smaller scale the mantissa has more bits, and the value is the same. -/
theorem cast_mul_two_pow_mul_zpow (m : Nat) {k : Int} (hk : k ≤ e) :
    ((m * 2 ^ (e - k).toNat : Nat) * 2 ^ k : ℚ) = m * 2 ^ e := by
  obtain ⟨n, hn⟩ := Int.eq_ofNat_of_zero_le (sub_nonneg.2 hk)
  obtain rfl : e = k + n := by omega
  rw [hn, Int.toNat_natCast, zpow_add₀ (by norm_num), zpow_natCast]
  push_cast
  ring

theorem apply_decreaseExponent (s : Sign) (m : Nat) {k : Int} (hk : k ≤ e) :
    ((s.apply ((decreaseExponent m e k).1 : Int) : Int) : ℚ) * 2 ^ k = signed s (m * 2 ^ e) := by
  rw [decreaseExponent, Nat.shiftLeft_eq, ← signed_natCast, ← signed_mul,
    cast_mul_two_pow_mul_zpow m hk]

/-- **A sum is rounded once.** -/
theorem rounds_add (hx : value? x = some a) (hy : value? y = some b) : Rounds (x + y) (a + b) := by
  have hsum : x + y = ofParts (.add binary64 (parts x) (parts y)) := rfl
  rw [hsum]
  rcases parts_of_value? hx with ⟨s₁, hpx, rfl⟩ | ⟨s₁, m₁, e₁, hm₁, hpx, -, rfl⟩ <;>
    rcases parts_of_value? hy with ⟨s₂, hpy, rfl⟩ | ⟨s₂, m₂, e₂, hm₂, hpy, -, rfl⟩
  case inl.inl =>
    obtain ⟨s, hs⟩ : ∃ s, UnpackedFloat.add binary64 (.zero s₁) (.zero s₂) = .zero s := by
      cases s₁ <;> cases s₂ <;> exact ⟨_, rfl⟩
    rw [hpx, hpy, add_zero, hs]
    exact rounds_zero s
  case inl.inr =>
    have hself := rounds_parts hy
    rw [hpy] at hself
    rw [hpx, hpy, zero_add]
    exact hself
  case inr.inl =>
    have hself := rounds_parts hx
    rw [hpx] at hself
    rw [hpx, hpy, add_zero]
    exact hself
  case inr.inr =>
    rw [hpx, hpy, ← apply_decreaseExponent s₁ m₁ (min_le_left e₁ e₂),
      ← apply_decreaseExponent s₂ m₂ (min_le_right e₁ e₂), ← add_mul, ← Int.cast_add]
    exact rounds_normalize _ _ _

/-- **A difference is rounded once.** -/
theorem rounds_sub (hx : value? x = some a) (hy : value? y = some b) : Rounds (x - y) (a - b) := by
  have hdifference : x - y = ofParts (.sub binary64 (parts x) (parts y)) := rfl
  rw [hdifference]
  rcases parts_of_value? hx with ⟨s₁, hpx, rfl⟩ | ⟨s₁, m₁, e₁, hm₁, hpx, -, rfl⟩ <;>
    rcases parts_of_value? hy with ⟨s₂, hpy, rfl⟩ | ⟨s₂, m₂, e₂, hm₂, hpy, hc₂, rfl⟩
  case inl.inl =>
    obtain ⟨s, hs⟩ : ∃ s, UnpackedFloat.sub binary64 (.zero s₁) (.zero s₂) = .zero s := by
      cases s₁ <;> cases s₂ <;> exact ⟨_, rfl⟩
    rw [hpx, hpy, sub_zero, hs]
    exact rounds_zero s
  case inl.inr =>
    have hneg : 0 - signed s₂ (m₂ * 2 ^ e₂ : ℚ) = signed (-s₂) (m₂ * 2 ^ e₂) := by
      rw [zero_sub]
      cases s₂ with
      | positive => rfl
      | negative => exact neg_neg _
    rw [hpx, hpy, hneg]
    exact rounds_finite (-s₂) hc₂ hm₂
  case inr.inl =>
    have hself := rounds_parts hx
    rw [hpx] at hself
    rw [hpx, hpy, sub_zero]
    exact hself
  case inr.inr =>
    rw [hpx, hpy, ← apply_decreaseExponent s₁ m₁ (min_le_left e₁ e₂),
      ← apply_decreaseExponent s₂ m₂ (min_le_right e₁ e₂), ← sub_mul, ← Int.cast_sub]
    exact rounds_normalize _ _ _

theorem signed_mul_signed (s₁ s₂ : Sign) (p q : ℚ) :
    signed s₁ p * signed s₂ q = signed (s₁ * s₂) (p * q) := by
  cases s₁ with
  | positive =>
    cases s₂ with
    | positive => rfl
    | negative => exact mul_neg p q
  | negative =>
    cases s₂ with
    | positive => exact neg_mul p q
    | negative => exact neg_mul_neg p q

theorem signed_div_signed (s₁ s₂ : Sign) (p q : ℚ) :
    signed s₁ p / signed s₂ q = signed (s₁ / s₂) (p / q) := by
  cases s₁ with
  | positive =>
    cases s₂ with
    | positive => rfl
    | negative => exact div_neg p
  | negative =>
    cases s₂ with
    | positive => exact neg_div q p
    | negative => exact neg_div_neg_eq p q

/-- A product of canonical mantissas has enough bits. -/
theorem add_le_of_canonical {m₁ m₂ : Nat} {e₁ e₂ : Int} (h₁ : Canonical m₁ e₁)
    (h₂ : Canonical m₂ e₂) (hm₁ : 0 < m₁) (hm₂ : 0 < m₂) :
    e₁ + e₂ ≤ max ((m₁ * m₂).log2 + (e₁ + e₂) - 52) (-1074) := by
  have hbits (h : 2 ^ (52 : Nat) ≤ m₁ * m₂) : 52 ≤ (m₁ * m₂).log2 :=
    (Nat.le_log2 (Nat.mul_pos hm₁ hm₂).ne').2 h
  rcases h₁.normal with hnormal | hleast₁
  · have hlog := hbits (hnormal.trans (Nat.le_mul_of_pos_right m₁ hm₂))
    omega
  rcases h₂.normal with hnormal | hleast₂
  · have hlog := hbits (hnormal.trans (Nat.le_mul_of_pos_left m₂ hm₁))
    omega
  · omega

/-- **A product is rounded once.** -/
theorem rounds_mul (hx : value? x = some a) (hy : value? y = some b) : Rounds (x * y) (a * b) := by
  have hproduct : x * y = ofParts (.mul binary64 (parts x) (parts y)) := rfl
  rw [hproduct]
  rcases parts_of_value? hx with ⟨s₁, hpx, rfl⟩ | ⟨s₁, m₁, e₁, hm₁, hpx, hc₁, rfl⟩ <;>
    rcases parts_of_value? hy with ⟨s₂, hpy, rfl⟩ | ⟨s₂, m₂, e₂, hm₂, hpy, hc₂, rfl⟩
  case inl.inl =>
    rw [hpx, hpy, zero_mul]
    exact rounds_zero _
  case inl.inr =>
    rw [hpx, hpy, zero_mul]
    exact rounds_zero _
  case inr.inl =>
    rw [hpx, hpy, mul_zero]
    exact rounds_zero _
  case inr.inr =>
    have hvalue : (m₁ * 2 ^ e₁ * (m₂ * 2 ^ e₂) : ℚ) = (m₁ * m₂ : Nat) * 2 ^ (e₁ + e₂) := by
      rw [zpow_add₀ (by norm_num)]
      push_cast
      ring
    rw [hpx, hpy, signed_mul_signed, hvalue]
    exact rounds_exact _ (Nat.mul_pos hm₁ hm₂) (add_le_of_canonical hc₁ hc₂ hm₁ hm₂)

/-- A quotient is computed with enough bits. -/
theorem rounds_divCore (s : Sign) {m₁ m₂ : Nat} (hm₁ : 0 < m₁) (hm₂ : 0 < m₂) (e₁ e₂ : Int) :
    let (m, e, accuracy) := UnpackedFloat.divCore binary64 m₁ e₁ m₂ e₂
    Rounds (ofParts (roundWithAccuracy binary64 s m e accuracy))
      (signed s (m₁ / m₂ * 2 ^ (e₁ - e₂))) := by
  obtain ⟨target, htarget⟩ : ∃ target, target = min (e₁ - e₂) (binary64.targetExponent
    (totalExponent m₁ e₁ - totalExponent m₂ e₂)) := ⟨_, rfl⟩
  obtain ⟨k, hk⟩ := Int.eq_ofNat_of_zero_le
    (sub_nonneg.2 (htarget.trans_le (min_le_left _ _)))
  have hm₁' : (0 : ℚ) < m₁ := by exact_mod_cast hm₁
  have hm₂' : (0 : ℚ) < m₂ := by exact_mod_cast hm₂
  have hshifted : ((m₁ * 2 ^ k : Nat) / m₂ : ℚ) = m₁ / m₂ * 2 ^ (k : Int) := by
    rw [zpow_natCast]
    push_cast
    ring
  have hvalue : (m₁ / m₂ * 2 ^ (e₁ - e₂) : ℚ) = (m₁ * 2 ^ k : Nat) / m₂ * 2 ^ target := by
    have hsum : e₁ - e₂ = k + target := by omega
    rw [hshifted, mul_assoc, ← zpow_add₀ (by norm_num), hsum]
  have henough : target ≤ lastBitOf (m₁ * 2 ^ k) m₂ target := by
    have hbits : (binary64.mantissaBits : Int) = 53 := rfl
    have hleast : binary64.minExponent = -1074 := rfl
    have hlog := log_div_mem hm₁ hm₂
    rw [Float.Model.Format.targetExponent, totalExponent, totalExponent, hbits, hleast] at htarget
    rw [lastBitOf, hshifted, log_mul_two_zpow (div_pos hm₁' hm₂')]
    omega
  have hround := rounds_roundWithAccuracy s (Nat.mul_pos hm₁ (Nat.two_pow_pos k)) hm₂
    (ofMantissaAndAccuracy_div hm₂) henough
  rw [UnpackedFloat.divCore, ← htarget, hk, Int.toNat_natCast, Nat.shiftLeft_eq, hvalue]
  exact hround

/-- **A quotient is rounded once.** -/
theorem rounds_div (hx : value? x = some a) (hy : value? y = some b) (hb : b ≠ 0) :
    Rounds (x / y) (a / b) := by
  have hquotient : x / y = ofParts (.div binary64 (parts x) (parts y)) := rfl
  rw [hquotient]
  rcases parts_of_value? hy with ⟨s₂, hpy, rfl⟩ | ⟨s₂, m₂, e₂, hm₂, hpy, -, rfl⟩
  · exact absurd rfl hb
  rcases parts_of_value? hx with ⟨s₁, hpx, rfl⟩ | ⟨s₁, m₁, e₁, hm₁, hpx, -, rfl⟩
  · rw [hpx, hpy, zero_div]
    exact rounds_zero _
  · have hvalue : (m₁ * 2 ^ e₁ / (m₂ * 2 ^ e₂) : ℚ) = m₁ / m₂ * 2 ^ (e₁ - e₂) := by
      rw [zpow_sub₀ (by norm_num), mul_div_mul_comm]
    rw [hpx, hpy, signed_div_signed, hvalue]
    exact rounds_divCore _ hm₁ hm₂ e₁ e₂

/-! ## Natural numbers -/

variable {j k : Nat}

/-- **Natural numbers are added exactly up to `2 ^ 53`**, where every one of them is a
double. -/
theorem value?_add_natCast (hx : value? x = some (j : ℚ)) (hy : value? y = some (k : ℚ))
    (hle : j + k ≤ 2 ^ (53 : Nat)) : value? (x + y) = some ((j + k : Nat) : ℚ) := by
  obtain ⟨z, hz⟩ := exists_value?_eq_natCast hle
  have hrounds := rounds_add hx hy
  rw [← Nat.cast_add] at hrounds
  exact hrounds.value?_eq hz

/-- They are subtracted exactly as well. -/
theorem value?_sub_natCast (hx : value? x = some (j : ℚ)) (hy : value? y = some (k : ℚ))
    (hkj : k ≤ j) (hle : j ≤ 2 ^ (53 : Nat)) : value? (x - y) = some ((j - k : Nat) : ℚ) := by
  obtain ⟨z, hz⟩ := exists_value?_eq_natCast ((Nat.sub_le j k).trans hle)
  have hrounds := rounds_sub hx hy
  rw [← Nat.cast_sub hkj] at hrounds
  exact hrounds.value?_eq hz

end Binary64
end DeskCalculator
