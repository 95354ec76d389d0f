import DeskCalculator.Evaluation
import DeskCalculator.Proofs.Binary64.Value

/-!
# Normalization is exact

A double that is whole and lies between the bounds of a word of 64 bits can be cast to
such a word.  The cast itself drops a fraction and stops at the bounds (`toInt64`); it
is guarded by comparisons of doubles, and the upper bound is rounded up to `2 ^ 63`
before it is compared (`exactCast?`).  Behind the guard the cast changes nothing: it
gives the integer that the double is (`exactCast?_eq`).  So a result is normalized to an
integer exactly if its value is one of 64 bits, and left as it is otherwise
(`normalize_classified`).
-/

namespace DeskCalculator
namespace Binary64

open Float.Model.UnpackedFloat (Sign)

variable {x : Float} {i : Int}

/-! ## Whole doubles -/

/-- The fractional part of a double, which is a double itself.  What is not finite has
none. -/
def fraction (x : Float) : Float :=
  match parts x with
  | .zero s => ofParts (.zero s)
  | .finite s m e _ => nearest s (m % 2 ^ (-e).toNat) (2 ^ (-e).toNat)
  | .infinity _ | .notANumber => ofParts .notANumber

/-- Is the double finite and without a fractional part? -/
def isIntegral (x : Float) : Bool :=
  x.isFinite && fraction x == 0

/-- The fractional part has its exact value. -/
theorem value?_fraction {s : Sign} {m : Nat} {e : Int} {hm : 0 < m}
    (h : parts x = .finite s m e hm) :
    value? (fraction x) = some (signed s ((m % 2 ^ (-e).toNat : Nat) / (2 ^ (-e).toNat : Nat))) := by
  have hc := canonical_of_parts h
  have hpow : 0 < 2 ^ (-e).toNat := Nat.two_pow_pos _
  rw [fraction, h]
  dsimp only
  generalize hr : m % 2 ^ (-e).toNat = r
  rcases Nat.eq_zero_or_pos r with rfl | hpos
  · rw [nearest_zero s hpow, value?, parts_zero]
    cases s <;> simp [signed]
  · have hneg : e < 0 := by
      by_contra hle
      have hzero : (-e).toNat = 0 := by omega
      rw [hzero, Nat.pow_zero, Nat.mod_one] at hr
      omega
    have hlt : r < 2 ^ (53 : Nat) := by
      have hle := Nat.mod_le m (2 ^ (-e).toNat)
      have hmlt := hc.lt
      omega
    have hvalue : (r / (2 ^ (-e).toNat : Nat) : ℚ) = r * 2 ^ e := by
      have hcast : ((-e).toNat : Int) = -e := by omega
      push_cast
      rw [← zpow_natCast, hcast, zpow_neg, div_inv_eq_mul]
    obtain ⟨m', e', hm', hc', hle, heq, hnearest⟩ :=
      exists_nearest s hpos hlt hc.le hpow hvalue
    rw [hnearest, value?_ofParts s hc' (by omega) hm', heq, hvalue]

/-- **A double is whole exactly if an integer can be read off.** -/
theorem isIntegral_iff (x : Float) : isIntegral x = true ↔ ∃ i, integer? x = some i := by
  have hfinite : x.isFinite = (parts x).isFinite := rfl
  rw [isIntegral, Bool.and_eq_true, hfinite]
  cases hparts : parts x with
  | zero s =>
    have hzero : value? (fraction x) = some 0 := by
      rw [fraction, hparts, value?, parts_zero]
    rw [beq_iff hzero value?_zero, integer?, hparts]
    exact ⟨fun _ => ⟨0, rfl⟩, fun _ => ⟨rfl, rfl⟩⟩
  | infinity s =>
    rw [integer?, hparts]
    refine iff_of_false (fun h => Bool.false_ne_true h.1) ?_
    rintro ⟨i, h⟩
    cases h
  | notANumber =>
    rw [integer?, hparts]
    refine iff_of_false (fun h => Bool.false_ne_true h.1) ?_
    rintro ⟨i, h⟩
    cases h
  | finite s m e hm =>
    have hpow : ((2 ^ (-e).toNat : Nat) : ℚ) ≠ 0 := by
      exact_mod_cast Nat.ne_of_gt (Nat.two_pow_pos (-e).toNat)
    rw [beq_iff (value?_fraction hparts) value?_zero, signed_eq_zero_iff, div_eq_zero_iff,
      or_iff_left hpow, Nat.cast_eq_zero, integer?, hparts]
    dsimp only
    by_cases he : 0 ≤ e
    · have hzero : (-e).toNat = 0 := by omega
      rw [if_pos he, hzero, Nat.pow_zero, Nat.mod_one]
      exact ⟨fun _ => ⟨_, rfl⟩, fun _ => ⟨rfl, rfl⟩⟩
    · rw [if_neg he]
      by_cases hmod : m % 2 ^ (-e).toNat = 0
      · rw [if_pos hmod]
        exact ⟨fun _ => ⟨_, rfl⟩, fun _ => ⟨rfl, hmod⟩⟩
      · rw [if_neg hmod]
        refine iff_of_false (fun h => hmod h.2) ?_
        rintro ⟨i, h⟩
        cases h

/-! ## The cast -/

/-- An integer, or the bound of a word of 64 bits that it is beyond. -/
def clamp (i : Int) : Int :=
  max (-2 ^ (63 : Nat)) (min i (2 ^ (63 : Nat) - 1))

/-- The word of 64 bits that a double is cast to.  A fraction is dropped, what is beyond
a bound becomes the bound, and what is not a number becomes zero. -/
def toInt64 (x : Float) : Int64 :=
  match parts x with
  | .zero _ | .notANumber => 0
  | .infinity s => .ofInt (clamp (s.apply (2 ^ (64 : Nat))))
  | .finite s m e _ => .ofInt (clamp (s.apply (m * 2 ^ e.toNat / 2 ^ (-e).toNat : Nat)))

/-- The least word of 64 bits, as a double. -/
def leastInt64 : Float :=
  nearest .negative (2 ^ (63 : Nat)) 1

/-- The greatest word of 64 bits, as a double: it is rounded up. -/
def greatestInt64 : Float :=
  nearest .positive (2 ^ (63 : Nat) - 1) 1

/-- The word of 64 bits that a double is cast to, if the cast is known to be exact. -/
def exactCast? (x : Float) : Option Int64 :=
  if !isIntegral x || x < leastInt64 || greatestInt64 ≤ x then none else some (toInt64 x)

theorem value?_leastInt64 : value? leastInt64 = some ((-2 ^ (63 : Nat) : Int) : ℚ) := by
  rw [value?_eq_intCast_iff]
  decide +kernel

/-- The upper bound is not a word of 64 bits any more. -/
theorem value?_greatestInt64 : value? greatestInt64 = some ((2 ^ (63 : Nat) : Int) : ℚ) := by
  rw [value?_eq_intCast_iff]
  decide +kernel

theorem clamp_of_range (hlow : -2 ^ (63 : Nat) ≤ i) (hhigh : i < 2 ^ (63 : Nat)) :
    clamp i = i := by
  unfold clamp
  omega

/-- Within the bounds a whole double is cast to the integer that it is. -/
theorem toInt64_of_integer? (h : integer? x = some i) (hlow : -2 ^ (63 : Nat) ≤ i)
    (hhigh : i < 2 ^ (63 : Nat)) : toInt64 x = .ofInt i := by
  rw [integer?] at h
  rw [toInt64]
  cases hparts : parts x with
  | zero s =>
    rw [hparts] at h
    cases h
    rfl
  | infinity s =>
    rw [hparts] at h
    cases h
  | notANumber =>
    rw [hparts] at h
    cases h
  | finite s m e hm =>
    rw [hparts] at h
    dsimp only at h ⊢
    by_cases he : 0 ≤ e
    · have hzero : (-e).toNat = 0 := by omega
      rw [if_pos he] at h
      rw [hzero, Nat.pow_zero, Nat.div_one, Option.some.inj h, clamp_of_range hlow hhigh]
    · have hzero : e.toNat = 0 := by omega
      rw [if_neg he] at h
      by_cases hmod : m % 2 ^ (-e).toNat = 0
      · rw [if_pos hmod] at h
        rw [hzero, Nat.pow_zero, Nat.mul_one, Option.some.inj h, clamp_of_range hlow hhigh]
      · rw [if_neg hmod] at h
        cases h

/-- **Behind its guard the cast is exact.** -/
theorem exactCast?_eq (x : Float) : exactCast? x = int64? x := by
  rw [exactCast?, int64?]
  cases hi : integer? x with
  | none =>
    have hnot : isIntegral x = false := by
      rw [← Bool.not_eq_true, isIntegral_iff]
      rintro ⟨i, h⟩
      rw [hi] at h
      cases h
    rw [hnot]
    rfl
  | some i =>
    have hwhole : isIntegral x = true := (isIntegral_iff x).2 ⟨i, hi⟩
    have hvalue := (value?_eq_intCast_iff x i).2 hi
    have hlow : x < leastInt64 ↔ i < -2 ^ (63 : Nat) := by
      rw [lt_iff hvalue value?_leastInt64]
      exact Int.cast_lt
    have hhigh : greatestInt64 ≤ x ↔ 2 ^ (63 : Nat) ≤ i := by
      rw [le_iff value?_greatestInt64 hvalue]
      exact Int.cast_le
    by_cases hrange : -2 ^ (63 : Nat) ≤ i ∧ i < 2 ^ (63 : Nat)
    · have hnotLow : ¬ x < leastInt64 := by
        rw [hlow]
        omega
      have hnotHigh : ¬ greatestInt64 ≤ x := by
        rw [hhigh]
        omega
      dsimp only
      rw [if_pos hrange, toInt64_of_integer? hi hrange.1 hrange.2]
      simp [hwhole, hnotLow, hnotHigh]
    · have hout : x < leastInt64 ∨ greatestInt64 ≤ x := by
        rw [hlow, hhigh]
        omega
      dsimp only
      rw [if_neg hrange]
      simp [hwhole, hout]

end Binary64

namespace Number

/-! ## Results -/

/-- A whole value of 64 bits is one that can be read off. -/
theorem int64?_eq_some_iff (x : Float) (n : Int64) :
    Binary64.int64? x = some n ↔ Binary64.value? x = some (n.toInt : ℚ) := by
  rw [Binary64.value?_eq_intCast_iff, Binary64.int64?]
  cases hi : Binary64.integer? x with
  | none => simp
  | some i =>
    dsimp only
    by_cases hrange : -2 ^ (63 : Nat) ≤ i ∧ i < 2 ^ (63 : Nat)
    · have htoInt : (Int64.ofInt i).toInt = i := Int64.toInt_ofInt_of_le hrange.1 hrange.2
      rw [if_pos hrange, Option.some.injEq, Option.some.injEq, ← Int64.toInt_inj, htoInt]
    · rw [if_neg hrange]
      constructor
      · intro h
        cases h
      · intro h
        rw [Option.some.injEq] at h
        exact absurd (h ▸ ⟨n.le_toInt, n.toInt_lt⟩) hrange

theorem normalize_eq_integer_iff (x : Float) (n : Int64) :
    normalize x = .integer n ↔ Binary64.value? x = some (n.toInt : ℚ) := by
  rw [← int64?_eq_some_iff, normalize]
  cases Binary64.int64? x <;> simp

/-- **Normalization is exact.**  A result is an integer exactly if its value is an integer
between `-2 ^ 63` and `2 ^ 63`, the upper bound excluded, and then it is this value.  Every
other result is the double itself.  The integer comes out of the guarded cast, which is
never used where it would stop at a bound or drop a fraction. -/
theorem normalize_classified (x : Float) :
    (∀ n, normalize x = .integer n ↔ Binary64.value? x = some (n.toInt : ℚ)) ∧
      ((∃ n, normalize x = .integer n) ↔
        ∃ i : Int, Binary64.value? x = some (i : ℚ) ∧ -2 ^ (63 : Nat) ≤ i ∧ i < 2 ^ (63 : Nat)) ∧
      ((∀ n, normalize x ≠ .integer n) → normalize x = .real x) ∧
      (normalize x =
        match Binary64.exactCast? x with
        | some n => .integer n
        | none => .real x) ∧
      ∀ n, normalize x = .integer n →
        n = Binary64.toInt64 x ∧ Binary64.integer? x = some (Binary64.toInt64 x).toInt := by
  refine ⟨normalize_eq_integer_iff x, ⟨?_, ?_⟩, ?_, ?_, ?_⟩
  · rintro ⟨n, hn⟩
    exact ⟨n.toInt, (normalize_eq_integer_iff x n).1 hn, n.le_toInt, n.toInt_lt⟩
  · rintro ⟨i, hi, hlow, hhigh⟩
    refine ⟨.ofInt i, (normalize_eq_integer_iff x _).2 ?_⟩
    rw [Int64.toInt_ofInt_of_le hlow hhigh, hi]
  · intro h
    rw [normalize] at h ⊢
    cases hn : Binary64.int64? x with
    | some n =>
      rw [hn] at h
      exact absurd rfl (h n)
    | none => rfl
  · rw [Binary64.exactCast?_eq]
    rfl
  · intro n hn
    have hinteger : Binary64.integer? x = some n.toInt :=
      (Binary64.value?_eq_intCast_iff x _).1 ((normalize_eq_integer_iff x n).1 hn)
    have hcast := Binary64.toInt64_of_integer? hinteger n.le_toInt n.toInt_lt
    rw [Int64.ofInt_toInt] at hcast
    rw [hcast]
    exact ⟨rfl, hinteger⟩

-- the greatest double below the bound, and the bound
example : normalize 9223372036854774784 = .integer 9223372036854774784 := by decide +kernel

example : normalize 9223372036854775807 = .real 9223372036854775808 := by decide +kernel

end Number
end DeskCalculator
