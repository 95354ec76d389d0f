import Mathlib.Algebra.Order.Group.Unbundled.Abs
import Mathlib.Algebra.Group.Even
import Mathlib.Tactic.Linarith
import DeskCalculator.Proofs.Binary64.Value

/-!
# The nearest double

Rounding gives the double nearest to a number, a tie going to the even mantissa
(`IsNearest`), unless it overflows (`Rounds.isNearest`).  It does not overflow up to the
greatest double (`Rounds.isFinite`).  So rounding keeps the order against any double
(`IsNearest.le_of_le`, `IsNearest.ge_of_ge`), in particular the sign, and changes no number
that is a double (`IsNearest.value?_eq`).  The rule for ties leaves one nearest value
(`IsNearest.value?_unique`).
-/

namespace DeskCalculator
namespace Binary64

open Float.Model (UnpackedFloat)
open Float.Model.Format (binary64)
open Float.Model.UnpackedFloat (Sign)

variable {x y : Float} {q v w : ℚ} {num den m : Nat} {e : Int}

/-! ## Nearest doubles -/

/-- The mantissa of a double; that of a zero is zero. -/
def mantissa (x : Float) : Nat :=
  match parts x with
  | .finite _ m _ _ => m
  | _ => 0

/-- No finite double is nearer to a number than `x`, and if another value is as near, the
mantissa of `x` is even. -/
def IsNearest (x : Float) (q : ℚ) : Prop :=
  ∃ v, value? x = some v ∧ ∀ y w, value? y = some w →
    |v - q| ≤ |w - q| ∧ (|v - q| = |w - q| → w = v ∨ Even (mantissa x))

/-- A double is nearest to its own value. -/
theorem isNearest_of_value? (h : value? x = some v) : IsNearest x v := by
  refine ⟨v, h, fun y w _ => ?_⟩
  rw [sub_self, abs_zero]
  exact ⟨abs_nonneg _, fun hzero => Or.inl (sub_eq_zero.1 (abs_eq_zero.1 hzero.symm))⟩

theorem IsNearest.exists_value? (h : IsNearest x q) : ∃ v, value? x = some v := by
  obtain ⟨v, hv, -⟩ := h
  exact ⟨v, hv⟩

theorem IsNearest.abs_sub_le (h : IsNearest x q) (hx : value? x = some v)
    (hy : value? y = some w) :
    |v - q| ≤ |w - q| ∧ (|v - q| = |w - q| → w = v ∨ Even (mantissa x)) := by
  obtain ⟨v', hv', hnearest⟩ := h
  obtain rfl : v' = v := Option.some.inj (hv'.symm.trans hx)
  exact hnearest y w hy

/-- A double that is at least the number is at least the nearest double. -/
theorem IsNearest.le_of_le (h : IsNearest x q) (hx : value? x = some v) (hy : value? y = some w)
    (hle : q ≤ w) : v ≤ w := by
  by_contra hlt
  have hnear := (h.abs_sub_le hx hy).1
  rw [abs_of_nonneg (by linarith), abs_of_nonneg (by linarith)] at hnear
  linarith

/-- A double that is at most the number is at most the nearest double. -/
theorem IsNearest.ge_of_ge (h : IsNearest x q) (hx : value? x = some v) (hy : value? y = some w)
    (hle : w ≤ q) : w ≤ v := by
  by_contra hlt
  have hnear := (h.abs_sub_le hx hy).1
  rw [abs_of_nonpos (by linarith), abs_of_nonpos (by linarith)] at hnear
  linarith

/-- A number that is a double is not changed. -/
theorem IsNearest.value?_eq (h : IsNearest x q) (hy : value? y = some q) : value? x = some q := by
  obtain ⟨v, hv⟩ := h.exists_value?
  have hnear := (h.abs_sub_le hv hy).1
  rw [sub_self, abs_zero] at hnear
  have hzero := abs_eq_zero.1 (le_antisymm hnear (abs_nonneg _))
  rw [hv, sub_eq_zero.1 hzero]

/-! ## The nearest integer -/

theorem cast_div_add_mod (hden : 0 < den) :
    (num / den : ℚ) = (num / den : Nat) + (num % den : Nat) / den := by
  have hne : (den : ℚ) ≠ 0 := by exact_mod_cast Nat.ne_of_gt hden
  rw [div_eq_iff hne, add_mul, div_mul_cancel₀ _ hne]
  exact_mod_cast (Nat.div_add_mod' num den).symm

/-- A ratio is rounded by at most a half, and by a half only to an even number. -/
theorem roundHalfEven_sub (num : Nat) (hden : 0 < den) :
    |(roundHalfEven num den : ℚ) - num / den| ≤ 1 / 2 ∧
      (|(roundHalfEven num den : ℚ) - num / den| = 1 / 2 → Even (roundHalfEven num den)) := by
  have hpos : (0 : ℚ) < den := by exact_mod_cast hden
  have hrest : (0 : ℚ) ≤ (num % den : Nat) / den := by positivity
  have hrest_lt : ((num % den : Nat) / den : ℚ) < 1 := by
    rw [div_lt_one hpos]
    exact_mod_cast Nat.mod_lt num hden
  rw [cast_div_add_mod hden, roundHalfEven]
  split
  · rename_i hless
    have hhalf : ((num % den : Nat) / den : ℚ) < 1 / 2 := by
      rw [div_lt_div_iff₀ hpos (by norm_num)]
      exact_mod_cast (by omega : num % den * 2 < 1 * den)
    rw [sub_add_cancel_left, abs_neg, abs_of_nonneg hrest]
    exact ⟨hhalf.le, fun h => absurd h hhalf.ne⟩
  split
  · rename_i hmore
    have hhalf : (1 / 2 : ℚ) < (num % den : Nat) / den := by
      rw [div_lt_div_iff₀ (by norm_num) hpos]
      exact_mod_cast (by omega : 1 * den < num % den * 2)
    rw [Nat.cast_add, Nat.cast_one, add_sub_add_left_eq_sub, abs_of_nonneg (by linarith)]
    exact ⟨by linarith, fun h => absurd h (by linarith)⟩
  · have hhalf : ((num % den : Nat) / den : ℚ) = 1 / 2 := by
      rw [div_eq_div_iff hpos.ne' (by norm_num)]
      exact_mod_cast (by omega : num % den * 2 = 1 * den)
    rw [hhalf]
    rcases Nat.mod_two_eq_zero_or_one (num / den) with heven | hodd
    · rw [heven, Nat.add_zero, sub_add_cancel_left, abs_neg, abs_of_nonneg (by norm_num)]
      exact ⟨le_refl _, fun _ => Nat.even_iff.2 heven⟩
    · rw [hodd, Nat.cast_add, Nat.cast_one, add_sub_add_left_eq_sub, abs_of_nonneg (by norm_num)]
      refine ⟨by norm_num, fun _ => Nat.even_iff.2 ?_⟩
      omega

/-- **No integer is nearer** than the rounded ratio, and if another one is as near, the
rounded ratio is even. -/
theorem roundHalfEven_nearest (num : Nat) (hden : 0 < den) (k : Int) :
    |(roundHalfEven num den : ℚ) - num / den| ≤ |(k : ℚ) - num / den| ∧
      (|(roundHalfEven num den : ℚ) - num / den| = |(k : ℚ) - num / den| →
        k = roundHalfEven num den ∨ Even (roundHalfEven num den)) := by
  obtain ⟨hhalf, htie⟩ := roundHalfEven_sub num hden
  by_cases hk : k = roundHalfEven num den
  · rw [hk, Int.cast_natCast]
    exact ⟨le_refl _, fun _ => Or.inl rfl⟩
  · have hone : (1 : ℚ) ≤ |(k : ℚ) - roundHalfEven num den| := by
      exact_mod_cast Int.one_le_abs (sub_ne_zero.2 hk)
    have htriangle := abs_sub_le (k : ℚ) (num / den) (roundHalfEven num den)
    rw [abs_sub_comm (num / den : ℚ)] at htriangle
    exact ⟨by linarith, fun h => Or.inr (htie (by linarith))⟩

/-- Rounding keeps the order against integers. -/
theorem roundHalfEven_le (hden : 0 < den) (h : (num / den : ℚ) ≤ m) : roundHalfEven num den ≤ m := by
  by_contra hlt
  have hcast : (m : ℚ) < roundHalfEven num den := by exact_mod_cast not_le.1 hlt
  have hnear := (roundHalfEven_nearest num hden m).1
  rw [Int.cast_natCast, abs_of_nonneg (by linarith), abs_of_nonneg (by linarith)] at hnear
  linarith

theorem le_roundHalfEven (hden : 0 < den) (h : (m : ℚ) ≤ num / den) : m ≤ roundHalfEven num den := by
  by_contra hlt
  have hcast : (roundHalfEven num den : ℚ) < m := by exact_mod_cast not_le.1 hlt
  have hnear := (roundHalfEven_nearest num hden m).1
  rw [Int.cast_natCast, abs_of_nonpos (by linarith), abs_of_nonpos (by linarith)] at hnear
  linarith

/-! ## The last bit -/

/-- A ratio in units of a power of two, with and without fractions. -/
theorem cast_scaled_div (num den : Nat) (k : Int) :
    ((num * 2 ^ (-k).toNat : Nat) / (den * 2 ^ k.toNat : Nat) : ℚ) = num / den / 2 ^ k := by
  push_cast
  obtain ⟨n, rfl | rfl⟩ := Int.eq_nat_or_neg k
  · have hzero : (-(n : Int)).toNat = 0 := by omega
    rw [hzero, Int.toNat_natCast, pow_zero, mul_one, zpow_natCast, div_div]
  · have hzero : (-(n : Int)).toNat = 0 := by omega
    rw [hzero, neg_neg, Int.toNat_natCast, pow_zero, mul_one, zpow_neg, zpow_natCast,
      div_inv_eq_mul, mul_div_right_comm]

/-- A ratio times a power of two as a ratio. -/
theorem cast_ratio (n d : Nat) (e : Int) :
    ((n * 2 ^ e.toNat : Nat) / (d * 2 ^ (-e).toNat : Nat) : ℚ) = n / d * 2 ^ e := by
  have hscaled := cast_scaled_div n d (-e)
  rwa [neg_neg, zpow_neg, div_inv_eq_mul] at hscaled

theorem neg_1074_le_lastBit (num den : Nat) : -1074 ≤ lastBit num den :=
  Int.le_max_right _ _

/-- In units of the last bit a ratio has at most 53 bits. -/
theorem div_lt_lastBit (hnum : 0 < num) (hden : 0 < den) :
    (num / den : ℚ) < 2 ^ (53 : Nat) * 2 ^ lastBit num den := by
  have hpos : (0 : ℚ) < num / den := by positivity
  have hlog := Int.lt_zpow_succ_log_self (b := 2) (by decide) (num / den : ℚ)
  rw [← log2Ratio_eq_log hnum hden] at hlog
  have hle : log2Ratio num den + 1 ≤ 53 + lastBit num den := by
    rw [lastBit]
    omega
  calc (num / den : ℚ) < 2 ^ (log2Ratio num den + 1) := by exact_mod_cast hlog
    _ ≤ 2 ^ ((53 : Int) + lastBit num den) := zpow_le_zpow_right₀ (by norm_num) hle
    _ = 2 ^ (53 : Nat) * 2 ^ lastBit num den := by
      rw [zpow_add₀ (by norm_num)]
      rfl

/-- It has 53 bits, but for the least last bit. -/
theorem lastBit_le_div (hnum : 0 < num) (hden : 0 < den) :
    lastBit num den = -1074 ∨ (2 ^ (52 : Nat) * 2 ^ lastBit num den : ℚ) ≤ num / den := by
  have hpos : (0 : ℚ) < num / den := by positivity
  by_cases hleast : lastBit num den = -1074
  · exact Or.inl hleast
  · right
    have hlog := Int.zpow_log_le_self (b := 2) (by decide) hpos
    rw [← log2Ratio_eq_log hnum hden] at hlog
    have heq : (52 : Int) + lastBit num den = log2Ratio num den := by
      rw [lastBit] at hleast ⊢
      omega
    calc (2 ^ (52 : Nat) * 2 ^ lastBit num den : ℚ) = 2 ^ ((52 : Int) + lastBit num den) := by
          rw [zpow_add₀ (by norm_num)]
          rfl
      _ ≤ num / den := by
          rw [heq]
          exact_mod_cast hlog

/-! ## The mantissa -/

/-- A ratio in units of its last bit, rounded. -/
def roundedMantissa (num den : Nat) : Nat :=
  roundHalfEven (num * 2 ^ (-lastBit num den).toNat) (den * 2 ^ (lastBit num den).toNat)

theorem scaled_pos (hden : 0 < den) (k : Int) : 0 < den * 2 ^ k.toNat :=
  Nat.mul_pos hden (Nat.two_pow_pos _)

theorem roundedMantissa_le (hnum : 0 < num) (hden : 0 < den) :
    roundedMantissa num den ≤ 2 ^ (53 : Nat) := by
  have hpow : (0 : ℚ) < 2 ^ lastBit num den := zpow_pos (by norm_num) _
  refine roundHalfEven_le (scaled_pos hden _) ?_
  rw [cast_scaled_div, div_le_iff₀ hpow]
  exact_mod_cast (div_lt_lastBit hnum hden).le

theorem le_roundedMantissa (hnum : 0 < num) (hden : 0 < den) :
    lastBit num den = -1074 ∨ 2 ^ (52 : Nat) ≤ roundedMantissa num den := by
  refine (lastBit_le_div hnum hden).imp_right fun hle => ?_
  have hpow : (0 : ℚ) < 2 ^ lastBit num den := zpow_pos (by norm_num) _
  refine le_roundHalfEven (scaled_pos hden _) ?_
  rw [cast_scaled_div, le_div_iff₀ hpow]
  exact_mod_cast hle

theorem nearest_of_roundedMantissa_eq_zero (s : Sign) (h : roundedMantissa num den = 0) :
    nearest s num den = ofParts (.zero s) :=
  dif_pos h

theorem nearest_of_roundedMantissa_lt (s : Sign) (hpos : 0 < roundedMantissa num den)
    (hlt : roundedMantissa num den < 2 ^ (53 : Nat)) :
    nearest s num den =
      ofParts (.finite s (roundedMantissa num den) (lastBit num den) hpos) := by
  rw [nearest]
  exact (dif_neg hpos.ne').trans (if_neg hlt.ne)

/-- A mantissa rounded up to 54 bits moves to the next exponent. -/
theorem nearest_of_roundedMantissa_carry (s : Sign)
    (h : roundedMantissa num den = 2 ^ (53 : Nat)) :
    nearest s num den =
      ofParts (.finite s (2 ^ (52 : Nat)) (lastBit num den + 1) (by decide)) := by
  have hne : roundedMantissa num den ≠ 0 := by
    rw [h]
    decide
  rw [nearest]
  exact (dif_neg hne).trans (if_pos h)

/-- A rounded mantissa other than zero is that of canonical parts. -/
theorem exists_nearest_eq (s : Sign) (hnum : 0 < num) (hden : 0 < den)
    (h : roundedMantissa num den ≠ 0) :
    ∃ m e, ∃ hm : 0 < m, Canonical m e ∧
      (m * 2 ^ e : ℚ) = roundedMantissa num den * 2 ^ lastBit num den ∧
      (Even (roundedMantissa num den) → Even m) ∧
      nearest s num den = ofParts (.finite s m e hm) := by
  have hleast := neg_1074_le_lastBit num den
  rcases Nat.lt_or_eq_of_le (roundedMantissa_le hnum hden) with hlt | hcarry
  · exact ⟨roundedMantissa num den, lastBit num den, Nat.pos_of_ne_zero h,
      ⟨hlt, hleast, (le_roundedMantissa hnum hden).symm⟩, rfl, id,
      nearest_of_roundedMantissa_lt s (Nat.pos_of_ne_zero h) hlt⟩
  · refine ⟨2 ^ (52 : Nat), lastBit num den + 1, by decide, ⟨by decide, by omega, Or.inl le_rfl⟩,
      ?_, fun _ => by decide, nearest_of_roundedMantissa_carry s hcarry⟩
    rw [hcarry, zpow_add_one₀ (by norm_num)]
    push_cast
    ring

/-! ## Overflow -/

/-- A double with too large an exponent is infinite. -/
theorem ofParts_of_lt {s : Sign} {hm : 0 < m} (he : 971 < e) :
    ofParts (.finite s m e hm) = ofParts (.infinity s) := by
  have hbias : (binary64.exponentBias : Int) = 1023 := rfl
  have hlarge : 2 ^ (11 : Nat) ≤ (e + binary64.exponentBias + (52 : Nat)).toNat + 1 := by
    rw [hbias]
    omega
  have hpack : UnpackedFloat.pack binary64 (.finite s m e hm) =
      UnpackedFloat.pack binary64 (.infinity s) := by
    unfold UnpackedFloat.pack
    exact if_pos hlarge
  have hmodel : Float.Model.pack (.finite s m e hm) = Float.Model.pack (.infinity s) := by
    unfold Float.Model.pack
    congr 1
    exact congrArg UInt64.ofBitVec hpack
  exact congrArg Float.ofModel hmodel

/-- The parts of a finite double do not have too large an exponent. -/
theorem le_of_isFinite {s : Sign} {hm : 0 < m}
    (h : (ofParts (.finite s m e hm)).isFinite = true) : e ≤ 971 := by
  by_contra hlt
  have hinfinite : (ofParts (.infinity s)).isFinite = (parts (ofParts (.infinity s))).isFinite := rfl
  rw [ofParts_of_lt (not_le.1 hlt), hinfinite, parts_infinity] at h
  exact absurd h Bool.false_ne_true

theorem le_of_parts {s : Sign} {hm : 0 < m} (h : parts x = .finite s m e hm) : e ≤ 971 := by
  have hfinite : (ofParts (.finite s m e hm)).isFinite = true := by
    rw [← h, ofParts_parts]
    exact congrArg UnpackedFloat.isFinite h
  exact le_of_isFinite hfinite

/-- **The value of a rounded ratio**, unless it overflows. -/
theorem value?_nearest (s : Sign) (hnum : 0 < num) (hden : 0 < den)
    (hfinite : (nearest s num den).isFinite = true) :
    value? (nearest s num den) = some (signed s (roundedMantissa num den * 2 ^ lastBit num den)) ∧
      (Even (roundedMantissa num den) → Even (mantissa (nearest s num den))) := by
  by_cases hzero : roundedMantissa num den = 0
  · rw [nearest_of_roundedMantissa_eq_zero s hzero, hzero, value?, mantissa, parts_zero,
      Nat.cast_zero, zero_mul]
    refine ⟨congrArg some ((signed_eq_zero_iff s 0).2 rfl).symm, fun _ => ?_⟩
    exact Even.zero
  · obtain ⟨m, e, hm, hc, hvalue, heven, hnearest⟩ := exists_nearest_eq s hnum hden hzero
    rw [hnearest] at hfinite ⊢
    have he := le_of_isFinite hfinite
    rw [value?_ofParts s hc he hm, mantissa, parts_ofParts s hc he hm, hvalue]
    exact ⟨rfl, heven⟩

/-! ## Values on the scale of the last bit -/

/-- The value of a finite double is a mantissa of 53 bits with a sign, times a power of two. -/
theorem exists_mantissa_of_value? (h : value? x = some v) :
    ∃ (k : Int) (e : Int), |k| < 2 ^ (53 : Nat) ∧ -1074 ≤ e ∧ v = k * 2 ^ e := by
  rcases parts_of_value? h with ⟨s, -, rfl⟩ | ⟨s, m, e, hm, -, hc, rfl⟩
  · exact ⟨0, 0, by decide, by decide, by norm_num⟩
  · refine ⟨s.apply m, e, ?_, hc.le, ?_⟩
    · rw [Int.abs_eq_natAbs, natAbs_apply]
      exact_mod_cast hc.lt
    · rw [signed_mul, signed_natCast]

theorem abs_mul_zpow_sub (a q : ℚ) (k : Int) : |a * 2 ^ k - q| = |a - q / 2 ^ k| * 2 ^ k := by
  have hpow : (0 : ℚ) < 2 ^ k := zpow_pos (by norm_num) _
  rw [← abs_of_pos hpow, ← abs_mul, abs_of_pos hpow, sub_mul, div_mul_cancel₀ _ hpow.ne']

/-- No multiple of the last bit is nearer to a ratio than its rounded mantissa. -/
theorem roundedMantissa_nearest_multiple (num : Nat) (hden : 0 < den) (i : Int) :
    |(roundedMantissa num den * 2 ^ lastBit num den : ℚ) - num / den| ≤
        |(i * 2 ^ lastBit num den : ℚ) - num / den| ∧
      (|(roundedMantissa num den * 2 ^ lastBit num den : ℚ) - num / den| =
          |(i * 2 ^ lastBit num den : ℚ) - num / den| →
        i = roundedMantissa num den ∨ Even (roundedMantissa num den)) := by
  have hpow : (0 : ℚ) < 2 ^ lastBit num den := zpow_pos (by norm_num) _
  obtain ⟨hnear, htie⟩ := roundHalfEven_nearest (num * 2 ^ (-lastBit num den).toNat)
    (scaled_pos hden (lastBit num den)) i
  rw [cast_scaled_div] at hnear htie
  rw [abs_mul_zpow_sub, abs_mul_zpow_sub]
  exact ⟨mul_le_mul_of_nonneg_right hnear hpow.le, fun h => htie (mul_right_cancel₀ hpow.ne' h)⟩

/-- **No value of a double is nearer** to a ratio than its rounded mantissa, and if another
one is as near, the rounded mantissa is even. -/
theorem roundedMantissa_nearest (hnum : 0 < num) (hden : 0 < den) {k : Int}
    (hk : |k| < 2 ^ (53 : Nat)) (he : -1074 ≤ e) :
    |(roundedMantissa num den * 2 ^ lastBit num den : ℚ) - num / den| ≤
        |(k * 2 ^ e : ℚ) - num / den| ∧
      (|(roundedMantissa num den * 2 ^ lastBit num den : ℚ) - num / den| =
          |(k * 2 ^ e : ℚ) - num / den| →
        (k * 2 ^ e : ℚ) = roundedMantissa num den * 2 ^ lastBit num den ∨
          Even (roundedMantissa num den)) := by
  by_cases hscale : lastBit num den ≤ e
  · -- on the scale of the last bit the value is a multiple of it
    obtain ⟨n, hn⟩ := Int.eq_ofNat_of_zero_le (sub_nonneg.2 hscale)
    obtain rfl : e = lastBit num den + n := by omega
    have hvalue : (k * 2 ^ (lastBit num den + n) : ℚ) =
        ((k * 2 ^ n : Int) : ℚ) * 2 ^ lastBit num den := by
      rw [zpow_add₀ (by norm_num), zpow_natCast]
      push_cast
      ring
    obtain ⟨hnear, htie⟩ := roundedMantissa_nearest_multiple num hden (k * 2 ^ n)
    rw [hvalue]
    refine ⟨hnear, fun h => (htie h).imp_left fun hcast => ?_⟩
    rw [hcast, Int.cast_natCast]
  · -- below that scale all values are smaller than the power of two below the ratio
    have hle := (lastBit_le_div hnum hden).resolve_left (by omega)
    have hsmall : (k * 2 ^ e : ℚ) < 2 ^ (52 : Nat) * 2 ^ lastBit num den := by
      have hklt : (k : ℚ) < 2 ^ (53 : Nat) := by exact_mod_cast lt_of_abs_lt hk
      have hpow : (0 : ℚ) < 2 ^ e := zpow_pos (by norm_num) _
      calc (k * 2 ^ e : ℚ) < 2 ^ (53 : Nat) * 2 ^ e := mul_lt_mul_of_pos_right hklt hpow
        _ = 2 ^ (52 : Nat) * 2 ^ (e + 1) := by rw [zpow_add_one₀ (by norm_num)]; ring
        _ ≤ 2 ^ (52 : Nat) * 2 ^ lastBit num den := by
          gcongr
          · norm_num
          · omega
    have hnear := (roundedMantissa_nearest_multiple num hden ((2 ^ (52 : Nat) : Nat) : Int)).1
    rw [Int.cast_natCast, Nat.cast_pow, Nat.cast_ofNat,
      abs_of_nonpos (a := (2 ^ (52 : Nat) * 2 ^ lastBit num den : ℚ) - num / den)
        (by linarith)] at hnear
    rw [abs_of_nonpos (a := (k * 2 ^ e : ℚ) - num / den) (by linarith)]
    exact ⟨by linarith, fun h => absurd h (by linarith)⟩

/-! ## Rounding -/

theorem signed_signed (s : Sign) (q : ℚ) : signed s (signed s q) = q := by
  cases s with
  | positive => rfl
  | negative => exact neg_neg q

theorem abs_signed (s : Sign) (q : ℚ) : |signed s q| = |q| := by
  cases s with
  | positive => rfl
  | negative => exact abs_neg q

theorem abs_signed_sub (s : Sign) (a b : ℚ) : |signed s a - b| = |a - signed s b| := by
  cases s with
  | positive => rfl
  | negative =>
    rw [signed, signed, ← abs_neg, neg_sub, sub_neg_eq_add, sub_neg_eq_add, add_comm]

/-- **A rounded ratio is the nearest double**, unless it overflows. -/
theorem isNearest_nearest (s : Sign) (hden : 0 < den)
    (hfinite : (nearest s num den).isFinite = true) :
    IsNearest (nearest s num den) (signed s (num / den)) := by
  rcases Nat.eq_zero_or_pos num with rfl | hnum
  · rw [nearest_zero s hden, Nat.cast_zero, zero_div]
    refine isNearest_of_value? ?_
    rw [value?, parts_zero, (signed_eq_zero_iff s 0).2 rfl]
  · obtain ⟨hvalue, heven⟩ := value?_nearest s hnum hden hfinite
    refine ⟨_, hvalue, fun y w hy => ?_⟩
    obtain ⟨k, e, hk, he, rfl⟩ := exists_mantissa_of_value? hy
    -- the value and its negation are as good, since rounding is by magnitude
    obtain ⟨i, hi, hik⟩ : ∃ i : Int, |i| < 2 ^ (53 : Nat) ∧ signed s (k * 2 ^ e) = i * 2 ^ e := by
      cases s with
      | positive => exact ⟨k, hk, rfl⟩
      | negative => exact ⟨-k, by rwa [abs_neg], by rw [signed, Int.cast_neg, neg_mul]⟩
    obtain ⟨hnear, htie⟩ := roundedMantissa_nearest hnum hden hi he
    rw [abs_signed_sub, signed_signed, ← signed_signed s (k * 2 ^ e), abs_signed_sub,
      signed_signed, hik]
    refine ⟨hnear, fun h => (htie h).imp ?_ heven⟩
    intro heq
    rw [heq]

/-- A mantissa of at most 53 bits is not changed by rounding, nor is a zero. -/
theorem value?_nearest_of_lt (s : Sign) (hm : m < 2 ^ (53 : Nat)) (hle : -1074 ≤ e)
    (he : e ≤ 971) :
    value? (nearest s (m * 2 ^ e.toNat) (2 ^ (-e).toNat)) = some (signed s (m * 2 ^ e)) := by
  rcases Nat.eq_zero_or_pos m with rfl | hpos
  · rw [Nat.zero_mul, nearest_zero s (Nat.two_pow_pos _), value?, parts_zero, Nat.cast_zero,
      zero_mul, (signed_eq_zero_iff s 0).2 rfl]
  · have hvalue := cast_ratio m 1 e
    rw [Nat.one_mul, Nat.cast_one, div_one] at hvalue
    obtain ⟨m', e', hm', hc, hle', heq, hnearest⟩ :=
      exists_nearest s hpos hm hle (Nat.two_pow_pos _) hvalue
    rw [hnearest, value?_ofParts s hc (hle'.trans he) hm', heq]

/-- A mantissa of at most 53 bits with a sign, times a power of two, is a double. -/
theorem exists_value?_eq {k : Int} (hk : |k| < 2 ^ (53 : Nat)) (hle : -1074 ≤ e) (he : e ≤ 971) :
    ∃ y, value? y = some ((k : ℚ) * 2 ^ e) := by
  have hlt : k.natAbs < 2 ^ (53 : Nat) := by
    rw [Int.abs_eq_natAbs] at hk
    exact_mod_cast hk
  rcases Int.natAbs_eq k with h | h
  · have hvalue := value?_nearest_of_lt .positive hlt hle he
    rw [h, Int.cast_natCast]
    exact ⟨_, hvalue⟩
  · have hvalue := value?_nearest_of_lt .negative hlt hle he
    rw [h, Int.cast_neg, Int.cast_natCast, neg_mul]
    exact ⟨_, hvalue⟩

/-- Every natural number up to `2 ^ 53` is a double. -/
theorem exists_value?_eq_natCast {n : Nat} (hn : n ≤ 2 ^ (53 : Nat)) :
    ∃ y, value? y = some (n : ℚ) := by
  rcases Nat.lt_or_eq_of_le hn with hlt | rfl
  · have hcast : |(n : Int)| < 2 ^ (53 : Nat) := by exact_mod_cast hlt
    obtain ⟨y, hy⟩ := exists_value?_eq (e := 0) hcast (by decide) (by decide)
    rw [zpow_zero, mul_one] at hy
    exact ⟨y, hy⟩
  · obtain ⟨y, hy⟩ := exists_value?_eq (k := 1) (e := 53) (by decide) (by decide) (by decide)
    rw [Int.cast_one, one_mul] at hy
    exact ⟨y, by rw [hy]; norm_num⟩

/-- The greatest finite double. -/
def greatest : ℚ :=
  (2 ^ (53 : Nat) - 1) * 2 ^ (971 : Int)

theorem canonical_greatest : Canonical (2 ^ (53 : Nat) - 1) 971 :=
  ⟨by decide, by decide, Or.inl (by decide)⟩

theorem greatest_eq : greatest = (2 ^ (53 : Nat) - 1 : Nat) * 2 ^ (971 : Int) := by
  rw [greatest, Nat.cast_sub (Nat.one_le_two_pow), Nat.cast_pow, Nat.cast_ofNat, Nat.cast_one]

/-- The magnitude of a finite double has canonical parts, that of a zero included. -/
theorem exists_canonical_abs (h : value? x = some v) :
    ∃ e, Canonical (mantissa x) e ∧ e ≤ 971 ∧ |v| = mantissa x * 2 ^ e := by
  rcases parts_of_value? h with ⟨s, hparts, rfl⟩ | ⟨s, m, e, hm, hparts, hc, rfl⟩
  · have hzero : mantissa x = 0 := by rw [mantissa, hparts]
    rw [hzero, abs_zero, Nat.cast_zero]
    exact ⟨-1074, ⟨by decide, by decide, Or.inr rfl⟩, by decide, (zero_mul _).symm⟩
  · have hmantissa : mantissa x = m := by rw [mantissa, hparts]
    rw [hmantissa, abs_signed, abs_of_pos (mul_zpow_pos hm e)]
    exact ⟨e, hc, le_of_parts hparts, rfl⟩

/-- No magnitude of a finite double is greater. -/
theorem abs_le_greatest (h : value? x = some v) : |v| ≤ greatest := by
  obtain ⟨e, hc, he, habs⟩ := exists_canonical_abs h
  have hmantissa : mantissa x ≤ 2 ^ (53 : Nat) - 1 := Nat.le_sub_one_of_lt hc.lt
  rw [habs, greatest_eq]
  exact mul_le_mul (by exact_mod_cast hmantissa) (zpow_le_zpow_right₀ (by norm_num) he)
    (zpow_nonneg (by norm_num) e) (Nat.cast_nonneg _)

/-- **Up to the greatest double nothing overflows.** -/
theorem isFinite_nearest (s : Sign) (hden : 0 < den) (h : (num / den : ℚ) ≤ greatest) :
    (nearest s num den).isFinite = true := by
  have hparts (y : Float) : y.isFinite = (parts y).isFinite := rfl
  rcases Nat.eq_zero_or_pos num with rfl | hnum
  · rw [nearest_zero s hden, hparts, parts_zero]
    rfl
  by_cases hzero : roundedMantissa num den = 0
  · rw [nearest_of_roundedMantissa_eq_zero s hzero, hparts, parts_zero]
    rfl
  · obtain ⟨m, e, hm, hc, hvalue, -, hnearest⟩ := exists_nearest_eq s hnum hden hzero
    have he : e ≤ 971 := by
      by_contra hlt
      -- the greatest double would be nearer
      have hlarge : greatest < roundedMantissa num den * 2 ^ lastBit num den := by
        rw [← hvalue, greatest_eq]
        exact mul_zpow_lt_of_lt canonical_greatest hc (not_le.1 hlt)
      have hnear := (roundedMantissa_nearest hnum hden (k := ((2 ^ (53 : Nat) - 1 : Nat) : Int))
        (e := 971) (by decide) (by decide)).1
      rw [Int.cast_natCast, ← greatest_eq, abs_of_nonneg (by linarith),
        abs_of_nonneg (by linarith)] at hnear
      linarith
    rw [hnearest, hparts, parts_ofParts s hc he hm]
    rfl

/-- A double is a number rounded.  The sign of a zero is left open. -/
def Rounds (x : Float) (q : ℚ) : Prop :=
  ∃ (s : Sign) (num den : Nat), 0 < den ∧ q = signed s (num / den) ∧ x = nearest s num den

theorem Rounds.isNearest (h : Rounds x q) (hfinite : x.isFinite = true) : IsNearest x q := by
  obtain ⟨s, num, den, hden, rfl, rfl⟩ := h
  exact isNearest_nearest s hden hfinite

theorem Rounds.isFinite (h : Rounds x q) (hle : |q| ≤ greatest) : x.isFinite = true := by
  obtain ⟨s, num, den, hden, rfl, rfl⟩ := h
  rw [abs_signed, abs_of_nonneg (by positivity)] at hle
  exact isFinite_nearest s hden hle

/-- A number that is a double is rounded to itself. -/
theorem Rounds.value?_eq (h : Rounds x q) (hy : value? y = some q) : value? x = some q :=
  (h.isNearest (h.isFinite (abs_le_greatest hy))).value?_eq hy

/-! ## Uniqueness -/

/-- Between two even mantissas lies the next one after the smaller. -/
theorem add_one_mul_zpow_lt {n : Nat} {f : Int} (hc : Canonical m e) (hc' : Canonical n f)
    (hm : Even m) (hn : Even n) (h : (m * 2 ^ e : ℚ) < n * 2 ^ f) :
    Canonical (m + 1) e ∧ ((m + 1 : Nat) * 2 ^ e : ℚ) < n * 2 ^ f := by
  have hlt := hc.lt
  have hpow : (0 : ℚ) < 2 ^ e := zpow_pos (by norm_num) e
  obtain ⟨i, rfl⟩ := hm
  obtain ⟨j, rfl⟩ := hn
  have hsucc : Canonical (i + i + 1) e := ⟨by omega, hc.le, hc.normal.imp_left (by omega)⟩
  refine ⟨hsucc, ?_⟩
  rcases lt_trichotomy e f with hef | rfl | hfe
  · exact mul_zpow_lt_of_lt hsucc hc' hef
  · have hcast : i + i < j + j := by exact_mod_cast lt_of_mul_lt_mul_right h hpow.le
    refine mul_lt_mul_of_pos_right ?_ hpow
    exact_mod_cast (by omega : i + i + 1 < j + j)
  · exact absurd h (not_lt.2 (mul_zpow_lt_of_lt hc' hc hfe).le)

/-- The next mantissa gives a greater double. -/
theorem mul_zpow_lt_add_one (m : Nat) (e : Int) :
    (m * 2 ^ e : ℚ) < (m + 1 : Nat) * 2 ^ e := by
  have hpow : (0 : ℚ) < 2 ^ e := zpow_pos (by norm_num) e
  exact mul_lt_mul_of_pos_right (by exact_mod_cast Nat.lt_succ_self m) hpow

/-- Between two doubles with even mantissas lies another double. -/
theorem exists_value?_between (hx : value? x = some v) (hy : value? y = some w)
    (hevenx : Even (mantissa x)) (heveny : Even (mantissa y)) (h : v < w) :
    ∃ z u, value? z = some u ∧ v < u ∧ u < w := by
  obtain ⟨e, hc, he, habs⟩ := exists_canonical_abs hx
  obtain ⟨f, hc', hf, habs'⟩ := exists_canonical_abs hy
  rcases le_or_gt 0 v with hv | hv
  · rw [abs_of_nonneg hv] at habs
    rw [abs_of_nonneg (hv.trans h.le)] at habs'
    obtain ⟨hsucc, hlt⟩ := add_one_mul_zpow_lt hc hc' hevenx heveny (by rwa [← habs, ← habs'])
    obtain ⟨z, hz⟩ := exists_value?_eq (k := (mantissa x + 1 : Nat))
      (by exact_mod_cast hsucc.lt) hc.le he
    rw [Int.cast_natCast] at hz
    exact ⟨z, _, hz, habs.trans_lt (mul_zpow_lt_add_one _ e), hlt.trans_eq habs'.symm⟩
  rcases le_or_gt w 0 with hw | hw
  · rw [abs_of_neg hv] at habs
    rw [abs_of_nonpos hw] at habs'
    obtain ⟨hsucc, hlt⟩ := add_one_mul_zpow_lt hc' hc heveny hevenx
      (by rw [← habs, ← habs']; exact neg_lt_neg h)
    have hgreater := mul_zpow_lt_add_one (mantissa y) f
    obtain ⟨z, hz⟩ := exists_value?_eq (k := -(mantissa y + 1 : Nat))
      (by rw [abs_neg]; exact_mod_cast hsucc.lt) hc'.le hf
    rw [Int.cast_neg, Int.cast_natCast, neg_mul] at hz
    exact ⟨z, _, hz, by linarith, by linarith⟩
  · exact ⟨0, 0, value?_zero, hv, hw⟩

/-- Of two nearest values none is the smaller: they would have even mantissas, and a double
between them would be nearer. -/
theorem IsNearest.not_value_lt (hx : IsNearest x q) (hy : IsNearest y q)
    (hv : value? x = some v) (hw : value? y = some w) : ¬ v < w := by
  intro hlt
  obtain ⟨hle, htie⟩ := hx.abs_sub_le hv hw
  obtain ⟨hge, htie'⟩ := hy.abs_sub_le hw hv
  have heq := le_antisymm hle hge
  obtain ⟨z, u, hz, hvu, huw⟩ := exists_value?_between hv hw ((htie heq).resolve_left hlt.ne')
    ((htie' heq.symm).resolve_left hlt.ne) hlt
  have hmiddle : v - q = -(w - q) := by
    refine (abs_eq_abs.1 heq).resolve_left fun h => ?_
    linarith
  have hnear := (hx.abs_sub_le hv hz).1
  rw [abs_of_neg (a := v - q) (by linarith), le_abs] at hnear
  rcases hnear with h | h <;> linarith

/-- **There is only one nearest value.** -/
theorem IsNearest.value?_unique (hx : IsNearest x q) (hy : IsNearest y q) :
    value? x = value? y := by
  obtain ⟨v, hv⟩ := hx.exists_value?
  obtain ⟨w, hw⟩ := hy.exists_value?
  rw [hv, hw, le_antisymm (not_lt.1 (hy.not_value_lt hx hw hv))
    (not_lt.1 (hx.not_value_lt hy hv hw))]

end Binary64
end DeskCalculator
