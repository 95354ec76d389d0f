import DeskCalculator.Decimal.Shortest
import DeskCalculator.Proofs.Binary64.Rounding

/-!
# Decimals that are doubles

The exact value of a double is a decimal, and the double nearest to this decimal is
the double itself (`toFloat_ofBinary`).  So the shortest decimal of a double reads back
(`toFloat_shortest`), and so does the integer that a whole double is
(`integer?_nearestDecimal`).
-/

namespace DeskCalculator

open Float.Model.UnpackedFloat (Sign)

variable {m : Nat} {e : Int}

namespace Binary64

/-! ## Decimals without a fraction -/

@[simp] theorem nearestDecimal_zero (s : Sign) (e : Int) :
    nearestDecimal s 0 e = ofParts (.zero s) := rfl

/-- Zeros at the end of a natural number are a power of ten. -/
theorem nearestDecimal_mul_pow (s : Sign) {n k : Nat} (h : n ≠ 0 → k < 309) :
    nearestDecimal s (n * 10 ^ k) 0 = nearestDecimal s n k := by
  by_cases hzero : n = 0
  · rw [hzero, Nat.zero_mul, nearestDecimal_zero, nearestDecimal_zero]
  have hk := h hzero
  have hpow : n * 10 ^ k ≠ 0 := Nat.mul_ne_zero hzero (Nat.ne_of_gt (Nat.pow_pos (by decide)))
  have hneg : (-(k : Int)).toNat = 0 := by omega
  rw [nearestDecimal, if_neg hpow, if_neg (by decide), if_neg (by omega), nearestDecimal,
    if_neg hzero, if_neg (by omega), if_neg (by omega), Int.toNat_natCast, hneg]
  simp

/-- A natural number that is the value of canonical parts is not changed by rounding. -/
theorem nearestDecimal_natural (s : Sign) (hc : Canonical m e) (hm : 0 < m) {n : Nat}
    (h : n * 2 ^ (-e).toNat = 2 ^ e.toNat * m) :
    nearestDecimal s n 0 = ofParts (.finite s m e hm) := by
  have hne : n ≠ 0 := by
    rintro rfl
    have hpos : 0 < 2 ^ e.toNat * m := Nat.mul_pos (Nat.two_pow_pos _) hm
    omega
  have hpow : (10 : Nat) ^ (0 : Int).toNat = 1 := rfl
  rw [nearestDecimal, if_neg hne, if_neg (by decide), if_neg (by omega), Int.neg_zero, hpow,
    Nat.mul_one]
  refine nearest_of_eq s hc hm (by decide) ?_
  rw [h, Nat.one_mul]

end Binary64

namespace Decimal

open Binary64

/-! ## The exact decimal -/

theorem Scaled.toFloat_mk (s : Sign) (n : Nat) (e : Int) :
    (⟨s, n, e⟩ : Scaled).toFloat = nearestDecimal s n e := rfl

theorem two_mul_le_log2 (hm : 0 < m) (k : Nat) : 2 * k ≤ (m * 5 ^ k).log2 := by
  have hpos : m * 5 ^ k ≠ 0 := Nat.mul_ne_zero (Nat.ne_of_gt hm)
    (Nat.ne_of_gt (Nat.pow_pos (by decide)))
  rw [Nat.le_log2 hpos]
  calc 2 ^ (2 * k) = 4 ^ k := Nat.pow_mul 2 2 k
    _ ≤ 5 ^ k := Nat.pow_le_pow_left (by decide) k
    _ ≤ m * 5 ^ k := Nat.le_mul_of_pos_left _ hm

/-- **The exact decimal of a double reads back.** -/
theorem toFloat_ofBinary (s : Sign) (hc : Canonical m e) (hm : 0 < m) :
    (Scaled.ofBinary s m e).toFloat = ofParts (.finite s m e hm) := by
  have hle := hc.le
  rw [Scaled.ofBinary]
  by_cases he : 0 ≤ e
  · have hneg : (-e).toNat = 0 := by omega
    rw [if_pos he, Scaled.toFloat_mk]
    refine nearestDecimal_natural s hc hm ?_
    rw [hneg, Nat.pow_zero, Nat.mul_one, Nat.mul_comm]
  · have hne : m * 5 ^ (-e).toNat ≠ 0 := Nat.mul_ne_zero (Nat.ne_of_gt hm)
      (Nat.ne_of_gt (Nat.pow_pos (by decide)))
    -- the least double is far from where a decimal is known to be rounded to zero
    have hlog := two_mul_le_log2 hm (-e).toNat
    have hpos : e.toNat = 0 := by omega
    rw [if_neg he, Scaled.toFloat_mk, nearestDecimal, if_neg hne, if_neg (by omega),
      if_neg (by omega)]
    refine nearest_of_eq s hc hm (Nat.pow_pos (by decide)) ?_
    calc m * 5 ^ (-e).toNat * 10 ^ e.toNat * 2 ^ (-e).toNat
        = m * (5 ^ (-e).toNat * 2 ^ (-e).toNat) := by
          rw [hpos, Nat.pow_zero, Nat.mul_one, Nat.mul_assoc]
      _ = 10 ^ (-e).toNat * 2 ^ e.toNat * m := by
          rw [← Nat.mul_pow, hpos, Nat.pow_zero, Nat.mul_one, Nat.mul_comm]

/-- **The shortest decimal of a double reads back.** -/
theorem toFloat_shortest {x : Float} {s : Sign} {hm : 0 < m} (h : parts x = .finite s m e hm) :
    (shortest x s m e).toFloat = x := by
  have hexact : (Scaled.ofBinary s m e).toFloat = x := by
    rw [toFloat_ofBinary s (canonical_of_parts h) hm, ← h, ofParts_parts]
  exact Scaled.toFloat_coarsest hexact _

end Decimal

/-! ## Whole doubles -/

namespace Binary64

/-- A sign in front of a number other than zero is the sign of the integer. -/
theorem sign_apply (s : Sign) {n : Nat} (hn : 0 < n) :
    (if s.apply (n : Int) < 0 then Sign.negative else Sign.positive) = s ∧
      (s.apply (n : Int)).natAbs = n := by
  cases s with
  | positive =>
    have happly : Sign.positive.apply (n : Int) = n := rfl
    rw [happly, if_neg (by omega)]
    exact ⟨rfl, Int.natAbs_natCast n⟩
  | negative =>
    have happly : Sign.negative.apply (n : Int) = -n := rfl
    rw [happly, if_pos (by omega)]
    exact ⟨rfl, by omega⟩

/-- A double that is an integer other than zero has a sign and parts with a natural
number as their value. -/
theorem exists_natural_of_integer? {x : Float} {i : Int} (h : integer? x = some i)
    (hne : i ≠ 0) :
    ∃ s m e, ∃ hm : 0 < m, ∃ n : Nat, parts x = .finite s m e hm ∧ i = s.apply (n : Int) ∧
      0 < n ∧ n * 2 ^ (-e).toNat = 2 ^ e.toNat * m := by
  unfold integer? at h
  cases hparts : parts x with
  | zero s =>
    rw [hparts] at h
    cases h
    exact absurd rfl hne
  | notANumber =>
    rw [hparts] at h
    cases h
  | infinity s =>
    rw [hparts] at h
    cases h
  | finite s m e hm =>
    rw [hparts] at h
    dsimp only at h
    by_cases he : 0 ≤ e
    · have hneg : (-e).toNat = 0 := by omega
      rw [if_pos he] at h
      refine ⟨s, m, e, hm, m * 2 ^ e.toNat, rfl, (Option.some.inj h).symm,
        Nat.mul_pos hm (Nat.two_pow_pos _), ?_⟩
      rw [hneg, Nat.pow_zero, Nat.mul_one, Nat.mul_comm]
    · have hneg : e.toNat = 0 := by omega
      rw [if_neg he] at h
      by_cases hmod : m % 2 ^ (-e).toNat = 0
      · have hdvd : 2 ^ (-e).toNat ∣ m := Nat.dvd_of_mod_eq_zero hmod
        rw [if_pos hmod] at h
        refine ⟨s, m, e, hm, m / 2 ^ (-e).toNat, rfl, (Option.some.inj h).symm,
          Nat.div_pos (Nat.le_of_dvd hm hdvd) (Nat.two_pow_pos _), ?_⟩
        rw [Nat.div_mul_cancel hdvd, hneg, Nat.pow_zero, Nat.one_mul]
      · rw [if_neg hmod] at h
        cases h

/-- A double that is an integer other than zero is the double nearest to it. -/
theorem nearestDecimal_of_integer? {x : Float} {i : Int} (h : integer? x = some i)
    (hne : i ≠ 0) :
    nearestDecimal (if i < 0 then .negative else .positive) i.natAbs 0 = x := by
  obtain ⟨s, m, e, hm, n, hparts, rfl, hpos, hvalue⟩ := exists_natural_of_integer? h hne
  obtain ⟨hsign, habs⟩ := sign_apply s hpos
  rw [hsign, habs, nearestDecimal_natural s (canonical_of_parts hparts) hm hvalue, ← hparts,
    ofParts_parts]

/-- **The integer that a double is reads back as this integer.**  The double may be
another one: a negative zero becomes a positive one. -/
theorem integer?_nearestDecimal {x : Float} {i : Int} (h : integer? x = some i) :
    integer? (nearestDecimal (if i < 0 then .negative else .positive) i.natAbs 0) = some i := by
  by_cases hzero : i = 0
  · subst hzero
    decide +kernel
  · rw [nearestDecimal_of_integer? h hzero, h]

end Binary64
end DeskCalculator
