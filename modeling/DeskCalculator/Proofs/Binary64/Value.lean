import Mathlib.Order.Compare
import DeskCalculator.Proofs.Binary64.Rounding

/-!
# Exact values

A finite double has an exact rational value (`value?`).  The value is an integer
exactly where one is read off the parts (`value?_eq_intCast_iff`), and doubles are
compared as their values are (`lt_iff`, `beq_iff`, `le_iff`): canonical parts are ordered by
exponent first and by mantissa next (`compare_canonical`).  So a value is that of one double
only, but for the two zeros (`eq_of_value?_eq`).
-/

namespace DeskCalculator
namespace Binary64

open Float.Model.UnpackedFloat (Sign)

/-! ## Values -/

/-- A magnitude with a sign. -/
def signed : Sign → ℚ → ℚ
  | .positive, q => q
  | .negative, q => -q

/-- The exact value of a double, unless it is infinite or not a number. -/
def value? (x : Float) : Option ℚ :=
  match parts x with
  | .zero _ => some 0
  | .finite s m e _ => some (signed s (m * 2 ^ e))
  | .infinity _ | .notANumber => none

variable {x y : Float} {a b : ℚ} {s : Sign} {m : Nat} {e : Int}

/-- The doubles that have a value are the finite ones. -/
theorem isSome_value? (x : Float) : (value? x).isSome = x.isFinite := by
  have hfinite : x.isFinite = (parts x).isFinite := rfl
  rw [hfinite, value?]
  cases parts x <;> rfl

theorem isFinite_of_value? (h : value? x = some a) : x.isFinite = true := by
  rw [← isSome_value?, h, Option.isSome_some]

theorem exists_value? (h : x.isFinite = true) : ∃ a, value? x = some a := by
  rw [← isSome_value?, Option.isSome_iff_exists] at h
  exact h

/-- What has a value is a zero, or has canonical parts with this value. -/
theorem parts_of_value? (h : value? x = some a) :
    (∃ s, parts x = .zero s ∧ a = 0) ∨
      ∃ s m e, ∃ hm : 0 < m, parts x = .finite s m e hm ∧ Canonical m e ∧
        a = signed s (m * 2 ^ e) := by
  rw [value?] at h
  cases hparts : parts x with
  | zero s =>
    rw [hparts] at h
    exact Or.inl ⟨s, rfl, (Option.some.inj h).symm⟩
  | finite s m e hm =>
    rw [hparts] at h
    exact Or.inr ⟨s, m, e, hm, rfl, canonical_of_parts hparts, (Option.some.inj h).symm⟩
  | infinity s =>
    rw [hparts] at h
    cases h
  | notANumber =>
    rw [hparts] at h
    cases h

theorem value?_zero : value? 0 = some 0 := by
  have hparts : parts 0 = .zero .positive := by rfl
  rw [value?, hparts]

/-- The value of canonical parts. -/
theorem value?_ofParts (s : Sign) (hc : Canonical m e) (he : e ≤ 971) (hm : 0 < m) :
    value? (ofParts (.finite s m e hm)) = some (signed s (m * 2 ^ e)) := by
  rw [value?, parts_ofParts s hc he hm]

theorem signed_natCast (s : Sign) (n : Nat) : signed s n = (s.apply (n : Int) : Int) := by
  cases s with
  | positive => exact (Int.cast_natCast n).symm
  | negative => exact (Int.cast_neg _).trans (congrArg Neg.neg (Int.cast_natCast n)) |>.symm

theorem signed_mul (s : Sign) (q r : ℚ) : signed s (q * r) = signed s q * r := by
  cases s with
  | positive => rfl
  | negative => exact (neg_mul q r).symm

theorem signed_eq_zero_iff (s : Sign) (q : ℚ) : signed s q = 0 ↔ q = 0 := by
  cases s with
  | positive => exact Iff.rfl
  | negative => exact neg_eq_zero

theorem mul_zpow_pos (hm : 0 < m) (e : Int) : (0 : ℚ) < m * 2 ^ e :=
  mul_pos (by exact_mod_cast hm) (zpow_pos (by decide) e)

theorem apply_mul (s : Sign) (a b : Nat) :
    s.apply ((a * b : Nat) : Int) = s.apply (a : Int) * b := by
  cases s with
  | positive => exact Int.natCast_mul a b
  | negative =>
    show -((a * b : Nat) : Int) = -(a : Int) * b
    rw [Int.natCast_mul, Int.neg_mul]

theorem natAbs_apply (s : Sign) (a : Nat) : (s.apply (a : Int)).natAbs = a := by
  cases s with
  | positive => exact Int.natAbs_natCast a
  | negative => exact (Int.natAbs_neg a).trans (Int.natAbs_natCast a)

/-! ## Integers -/

/-- An integer is the value of a mantissa and a negative exponent if the bits below the
point are zeros. -/
theorem apply_eq_mul_two_pow_iff (s : Sign) (m k : Nat) (i : Int) :
    s.apply (m : Int) = i * (2 ^ k : Nat) ↔ m % 2 ^ k = 0 ∧ s.apply ((m / 2 ^ k : Nat) : Int) = i := by
  have hpos : (0 : Int) < (2 ^ k : Nat) := by exact_mod_cast Nat.two_pow_pos k
  constructor
  · intro h
    have hdvd : 2 ^ k ∣ m := by
      have habs := congrArg Int.natAbs h
      rw [natAbs_apply, Int.natAbs_mul, Int.natAbs_natCast] at habs
      exact ⟨i.natAbs, habs.trans (Nat.mul_comm _ _)⟩
    refine ⟨Nat.mod_eq_zero_of_dvd hdvd, ?_⟩
    have hsplit : s.apply ((m / 2 ^ k : Nat) : Int) * (2 ^ k : Nat) = i * (2 ^ k : Nat) := by
      rw [← apply_mul, Nat.div_mul_cancel hdvd, h]
    exact Int.eq_of_mul_eq_mul_right (Int.ne_of_gt hpos) hsplit
  · rintro ⟨hmod, rfl⟩
    rw [← apply_mul, Nat.div_mul_cancel (Nat.dvd_of_mod_eq_zero hmod)]

/-- **The value of a double is an integer where this integer is read off.** -/
theorem value?_eq_intCast_iff (x : Float) (i : Int) :
    value? x = some (i : ℚ) ↔ integer? x = some i := by
  rw [value?, integer?]
  cases parts x with
  | zero s =>
    simp only [Option.some.injEq]
    exact_mod_cast Iff.rfl
  | infinity s => simp
  | notANumber => simp
  | finite s m e hm =>
    simp only [Option.some.injEq, signed_mul, signed_natCast]
    obtain ⟨k, rfl | rfl⟩ := Int.eq_nat_or_neg e
    · rw [if_pos (Int.natCast_nonneg k), Int.toNat_natCast, apply_mul, zpow_natCast,
        Option.some.injEq]
      exact_mod_cast Iff.rfl
    · have hpow : (2 : ℚ) ^ k ≠ 0 := pow_ne_zero k (by decide)
      have hscale : ((s.apply (m : Int) : Int) : ℚ) * 2 ^ (-(k : Int)) = i ↔
          m % 2 ^ k = 0 ∧ s.apply ((m / 2 ^ k : Nat) : Int) = i := by
        rw [zpow_neg, zpow_natCast, mul_inv_eq_iff_eq_mul₀ hpow, ← apply_eq_mul_two_pow_iff]
        exact_mod_cast Iff.rfl
      rw [hscale]
      by_cases hk : 0 ≤ -(k : Int)
      · obtain rfl : k = 0 := by omega
        simp [Nat.mod_one]
      · rw [if_neg hk, neg_neg, Int.toNat_natCast]
        split <;> simp_all

/-- The natural numbers among them are read off likewise. -/
theorem natural?_eq_some_iff (x : Float) (n : Nat) :
    natural? x = some n ↔ value? x = some (n : ℚ) := by
  rw [← Int.cast_natCast, value?_eq_intCast_iff, natural?]
  cases integer? x with
  | none => simp
  | some i =>
    cases i with
    | ofNat k => simp
    | negSucc k => simp

theorem value?_one : value? 1 = some ((1 : Nat) : ℚ) :=
  (natural?_eq_some_iff _ _).1 (by decide +kernel)

/-! ## Order -/

/-- Of canonical parts, those with the greater exponent are the greater. -/
theorem mul_zpow_lt_of_lt {m₁ m₂ : Nat} {e₁ e₂ : Int} (h₁ : Canonical m₁ e₁)
    (h₂ : Canonical m₂ e₂) (h : e₁ < e₂) : (m₁ * 2 ^ e₁ : ℚ) < m₂ * 2 ^ e₂ := by
  have hle₁ := h₁.le
  have hlt : (m₁ : ℚ) < 2 ^ (53 : Nat) := by exact_mod_cast h₁.lt
  have hge : (2 : ℚ) ^ (52 : Nat) ≤ m₂ := by
    exact_mod_cast h₂.normal.resolve_right (by omega)
  have hpow₁ : (0 : ℚ) < 2 ^ e₁ := zpow_pos (by decide) _
  have hpow₂ : (0 : ℚ) < 2 ^ e₂ := zpow_pos (by decide) _
  calc (m₁ * 2 ^ e₁ : ℚ) < 2 ^ (53 : Nat) * 2 ^ e₁ := mul_lt_mul_of_pos_right hlt hpow₁
    _ = 2 ^ (52 : Nat) * 2 ^ (e₁ + 1) := by rw [zpow_add_one₀ (by decide)]; ring
    _ ≤ 2 ^ (52 : Nat) * 2 ^ e₂ := by gcongr; norm_num; omega
    _ ≤ m₂ * 2 ^ e₂ := mul_le_mul_of_nonneg_right hge hpow₂.le

/-- Canonical parts are compared by exponent first. -/
theorem compare_canonical {m₁ m₂ : Nat} {e₁ e₂ : Int} (h₁ : Canonical m₁ e₁)
    (h₂ : Canonical m₂ e₂) :
    (compare e₁ e₂).then (compare m₁ m₂) = compare (m₁ * 2 ^ e₁ : ℚ) (m₂ * 2 ^ e₂) := by
  rcases lt_trichotomy e₁ e₂ with h | rfl | h
  · rw [compare_lt_iff_lt.2 h, compare_lt_iff_lt.2 (mul_zpow_lt_of_lt h₁ h₂ h)]
    rfl
  · have hpow : (0 : ℚ) < 2 ^ e₁ := zpow_pos (by decide) _
    rw [compare_eq_iff_eq.2 rfl]
    rcases lt_trichotomy m₁ m₂ with hm | rfl | hm
    · have hcast : (m₁ : ℚ) < m₂ := by exact_mod_cast hm
      rw [compare_lt_iff_lt.2 hm, compare_lt_iff_lt.2 (mul_lt_mul_of_pos_right hcast hpow)]
      rfl
    · rw [compare_eq_iff_eq.2 rfl, compare_eq_iff_eq.2 rfl]
      rfl
    · have hcast : (m₂ : ℚ) < m₁ := by exact_mod_cast hm
      rw [compare_gt_iff_gt.2 hm, compare_gt_iff_gt.2 (mul_lt_mul_of_pos_right hcast hpow)]
      rfl
  · rw [compare_gt_iff_gt.2 h, compare_gt_iff_gt.2 (mul_zpow_lt_of_lt h₂ h₁ h)]
    rfl

/-- A value has only one mantissa and exponent that are canonical. -/
theorem Canonical.eq_of_value_eq {m₁ m₂ : Nat} {e₁ e₂ : Int} (h₁ : Canonical m₁ e₁)
    (h₂ : Canonical m₂ e₂) (h : (m₁ * 2 ^ e₁ : ℚ) = m₂ * 2 ^ e₂) : m₁ = m₂ ∧ e₁ = e₂ := by
  have hcompare := compare_canonical h₁ h₂
  rw [compare_eq_iff_eq.2 h, Ordering.then_eq_eq, compare_eq_iff_eq, compare_eq_iff_eq] at hcompare
  exact hcompare.symm

/-- **A value other than zero is that of one double.** -/
theorem eq_of_value?_eq (hx : value? x = some a) (hy : value? y = some a) (ha : a ≠ 0) :
    x = y := by
  rcases parts_of_value? hx with ⟨s₁, -, rfl⟩ | ⟨s₁, m₁, e₁, hm₁, hpx, hc₁, rfl⟩
  · exact absurd rfl ha
  rcases parts_of_value? hy with ⟨s₂, -, hzero⟩ | ⟨s₂, m₂, e₂, hm₂, hpy, hc₂, heq⟩
  · exact absurd hzero ha
  have hpos₁ := mul_zpow_pos hm₁ e₁
  have hpos₂ := mul_zpow_pos hm₂ e₂
  obtain ⟨rfl, hmagnitude⟩ : s₁ = s₂ ∧ (m₁ * 2 ^ e₁ : ℚ) = m₂ * 2 ^ e₂ := by
    cases s₁ with
    | positive =>
      cases s₂ with
      | positive => exact ⟨rfl, heq⟩
      | negative =>
        rw [signed, signed] at heq
        linarith
    | negative =>
      cases s₂ with
      | positive =>
        rw [signed, signed] at heq
        linarith
      | negative => exact ⟨rfl, neg_inj.1 heq⟩
  obtain ⟨rfl, rfl⟩ := hc₁.eq_of_value_eq hc₂ hmagnitude
  rw [← ofParts_parts x, ← ofParts_parts y, hpx, hpy]

theorem compare_neg (a b : ℚ) : compare (-a) (-b) = (compare a b).swap := by
  rcases lt_trichotomy a b with h | rfl | h
  · rw [compare_lt_iff_lt.2 h, compare_gt_iff_gt.2 (neg_lt_neg h)]
    rfl
  · rw [compare_eq_iff_eq.2 rfl, compare_eq_iff_eq.2 rfl]
    rfl
  · rw [compare_gt_iff_gt.2 h, compare_lt_iff_lt.2 (neg_lt_neg h)]
    rfl

/-- **Finite doubles are compared as their values are.** -/
theorem compare_parts (hx : value? x = some a) (hy : value? y = some b) :
    (parts x).compare (parts y) = some (compare a b) := by
  rcases parts_of_value? hx with ⟨s₁, hpx, rfl⟩ | ⟨s₁, m₁, e₁, hm₁, hpx, hc₁, rfl⟩ <;>
    rcases parts_of_value? hy with ⟨s₂, hpy, rfl⟩ | ⟨s₂, m₂, e₂, hm₂, hpy, hc₂, rfl⟩ <;>
    rw [hpx, hpy]
  case inl.inl =>
    rw [compare_eq_iff_eq.2 rfl]
    rfl
  case inl.inr =>
    have hpos := mul_zpow_pos hm₂ e₂
    cases s₂ with
    | positive =>
      rw [signed, compare_lt_iff_lt.2 hpos]
      rfl
    | negative =>
      rw [signed, compare_gt_iff_gt.2 (neg_neg_of_pos hpos)]
      rfl
  case inr.inl =>
    have hpos := mul_zpow_pos hm₁ e₁
    cases s₁ with
    | positive =>
      rw [signed, compare_gt_iff_gt.2 hpos]
      rfl
    | negative =>
      rw [signed, compare_lt_iff_lt.2 (neg_neg_of_pos hpos)]
      rfl
  case inr.inr =>
    have hpos₁ := mul_zpow_pos hm₁ e₁
    have hpos₂ := mul_zpow_pos hm₂ e₂
    have hcompare := compare_canonical hc₁ hc₂
    cases s₁ with
    | positive =>
      cases s₂ with
      | positive =>
        rw [signed, signed, ← hcompare]
        rfl
      | negative =>
        rw [signed, signed, compare_gt_iff_gt.2 (by linarith)]
        rfl
    | negative =>
      cases s₂ with
      | positive =>
        rw [signed, signed, compare_lt_iff_lt.2 (by linarith)]
        rfl
      | negative =>
        rw [signed, signed, compare_neg, ← hcompare]
        rfl

/-- Strict order is that of the values. -/
theorem lt_iff (hx : value? x = some a) (hy : value? y = some b) : x < y ↔ a < b := by
  have hlt : x < y ↔ ((parts x).compare (parts y) == some .lt) = true :=
    decide_eq_true_iff
  rw [hlt, compare_parts hx hy, ← compare_lt_iff_lt]
  simp

/-- Equality is that of the values: both zeros are equal. -/
theorem beq_iff (hx : value? x = some a) (hy : value? y = some b) : x == y ↔ a = b := by
  have hbeq : x == y ↔ ((parts x).compare (parts y) == some .eq) = true := Iff.rfl
  rw [hbeq, compare_parts hx hy, ← compare_eq_iff_eq]
  simp

/-- Order is that of the values. -/
theorem le_iff (hx : value? x = some a) (hy : value? y = some b) : x ≤ y ↔ a ≤ b := by
  have hle : x ≤ y ↔ ((parts x).compare (parts y)).any Ordering.isLE = true :=
    decide_eq_true_iff
  rw [hle, compare_parts hx hy, ← compare_le_iff_le, Option.any_some, Ordering.isLE_iff_ne_gt]

end Binary64
end DeskCalculator
