import DeskCalculator.Proofs.Binary64.Value

/-!
# The sign of a square root

The square root of a negative number is not a number (`isNaN_sqrt`), and any other one is not
negative (`sqrt_nonneg`), since packing keeps the sign (`parts_ofParts_cases`).
-/

namespace DeskCalculator
namespace Binary64

open Float.Model (UnpackedFloat)
open Float.Model.Format (binary64)
open Float.Model.UnpackedFloat (Sign packComponents unpackMantissa
  unpackExponent_packComponents unpackMantissa_packComponents)

variable {x : Float}

/-! ## Packing keeps the sign -/

theorem unpack_packComponents_cases (s : Sign) {w : BitVec 11} (v : BitVec 52) (hw : w ≠ -1#11) :
    UnpackedFloat.unpack binary64 (packComponents binary64 s w v) = .zero s ∨
      ∃ m e hm, UnpackedFloat.unpack binary64 (packComponents binary64 s w v) =
        .finite s m e hm := by
  unfold UnpackedFloat.unpack
  dsimp only
  rw [unpackExponent_packComponents, if_neg hw, sign_unpackSign_packComponents]
  by_cases hzeros : w = 0#11
  · rw [if_pos hzeros]
    by_cases hmantissa : v = 0#52
    · exact Or.inl (dif_pos (unpackMantissa_packComponents.trans hmantissa))
    · have hne : unpackMantissa (packComponents binary64 s w v) ≠ 0#52 := by
        rwa [unpackMantissa_packComponents]
      exact Or.inr ⟨_, _, toNat_pos_of_ne_zero hne, dif_neg hne⟩
  · have hpos : 0 < (1#1 ++ unpackMantissa (packComponents binary64 s w v)).toNat := by
      rw [toNat_leading_one]
      exact Nat.add_pos_left (Nat.two_pow_pos 52) _
    rw [if_neg hzeros]
    exact Or.inr ⟨_, _, hpos, rfl⟩

theorem pack_finite_cases (s : Sign) (m : Nat) (e : Int) (hm : 0 < m) :
    UnpackedFloat.pack binary64 (.finite s m e hm) = UnpackedFloat.pack binary64 (.infinity s) ∨
      ∃ w v, w ≠ -1#11 ∧
        UnpackedFloat.pack binary64 (.finite s m e hm) = packComponents binary64 s w v := by
  unfold UnpackedFloat.pack
  dsimp only
  by_cases hlarge : 2 ^ (11 : Nat) ≤ (e + binary64.exponentBias + (52 : Nat)).toNat + 1
  · exact Or.inl (if_pos hlarge)
  right
  rw [if_neg hlarge]
  by_cases hbits : m.log2 + 1 = binary64.mantissaBits
  · refine ⟨_, _, ?_, if_pos hbits⟩
    intro h
    have htoNat := congrArg BitVec.toNat h
    have hones : (-1#11).toNat = 2047 := rfl
    have hlt : (e + binary64.exponentBias + (52 : Nat)).toNat < 2 ^ (11 : Nat) := by omega
    rw [BitVec.toNat_ofNat, hones, Nat.mod_eq_of_lt hlt] at htoNat
    omega
  · exact ⟨_, _, by decide, if_neg hbits⟩

/-- What is packed keeps its sign, even if the parts are not canonical. -/
theorem parts_ofParts_cases (s : Sign) (m : Nat) (e : Int) (hm : 0 < m) :
    parts (ofParts (.finite s m e hm)) = .infinity s ∨
      parts (ofParts (.finite s m e hm)) = .zero s ∨
      ∃ m' e' hm', parts (ofParts (.finite s m e hm)) = .finite s m' e' hm' := by
  have hparts (p : UnpackedFloat) :
      parts (ofParts p) = UnpackedFloat.unpack binary64 (UnpackedFloat.pack binary64 p) := rfl
  rw [hparts]
  rcases pack_finite_cases s m e hm with hpack | ⟨w, v, hw, hpack⟩
  · rw [hpack]
    exact Or.inl (parts_infinity s)
  · rw [hpack]
    exact Or.inr (unpack_packComponents_cases s v hw)

/-! ## The sign of a root -/

theorem zero_le_iff (x : Float) :
    0 ≤ x ↔ ((UnpackedFloat.zero .positive).compare (parts x)).any Ordering.isLE = true :=
  decide_eq_true_iff

/-- What is packed with the positive sign is not negative. -/
theorem zero_le_ofParts (m : Nat) (e : Int) (hm : 0 < m) :
    0 ≤ ofParts (.finite .positive m e hm) := by
  rw [zero_le_iff]
  rcases parts_ofParts_cases .positive m e hm with hparts | hparts | ⟨m', e', hm', hparts⟩
  · rw [hparts]
    rfl
  · rw [hparts]
    rfl
  · rw [hparts]
    rfl

/-- What is rounded keeps its sign. -/
theorem roundWithAccuracy_cases (s : Sign) (m : Nat) (e : Int)
    (accuracy : UnpackedFloat.Accuracy) :
    UnpackedFloat.roundWithAccuracy binary64 s m e accuracy = .zero s ∨
      ∃ m' e' hm', UnpackedFloat.roundWithAccuracy binary64 s m e accuracy =
        .finite s m' e' hm' := by
  unfold UnpackedFloat.roundWithAccuracy
  dsimp only
  rcases Nat.eq_zero_or_pos _ with hzero | hpos
  · exact Or.inl (dif_pos hzero)
  · exact Or.inr ⟨_, _, _, dif_neg hpos.ne'⟩

/-- What is rounded with the positive sign is not negative. -/
theorem zero_le_roundWithAccuracy (m : Nat) (e : Int) (accuracy : UnpackedFloat.Accuracy) :
    0 ≤ ofParts (.roundWithAccuracy binary64 .positive m e accuracy) := by
  rcases roundWithAccuracy_cases .positive m e accuracy with hround | ⟨m', e', hm', hround⟩
  · rw [hround]
    decide +kernel
  · rw [hround]
    exact zero_le_ofParts m' e' hm'

/-- **The root of a number that is not negative is not negative.** -/
theorem sqrt_nonneg (h : 0 ≤ x) : 0 ≤ x.sqrt := by
  have hsqrt : x.sqrt = ofParts (.sqrt binary64 (parts x)) := rfl
  rw [zero_le_iff] at h
  rw [hsqrt]
  cases hparts : parts x with
  | zero s =>
    have hroot : UnpackedFloat.sqrt binary64 (.zero s) = .zero s := rfl
    rw [hroot, zero_le_iff, parts_zero]
    rfl
  | notANumber =>
    rw [hparts] at h
    exact absurd h (by decide)
  | infinity s =>
    rw [hparts] at h
    cases s with
    | positive => decide +kernel
    | negative => exact absurd h (by decide)
  | finite s m e hm =>
    rw [hparts] at h
    cases s with
    | positive =>
      exact zero_le_roundWithAccuracy _ _ _
    | negative => exact absurd h Bool.false_ne_true

/-- **The root of a negative number is not a number.** -/
theorem isNaN_sqrt (hfinite : x.isFinite = true) (h : x < 0) : x.sqrt.isNaN = true := by
  have hsqrt : x.sqrt = ofParts (.sqrt binary64 (parts x)) := rfl
  obtain ⟨a, ha⟩ := exists_value? hfinite
  rw [lt_iff ha value?_zero] at h
  rcases parts_of_value? ha with ⟨s, -, rfl⟩ | ⟨s, m, e, hm, hparts, -, rfl⟩
  · exact absurd h (lt_irrefl 0)
  cases s with
  | positive => exact absurd h (not_lt.2 (mul_zpow_pos hm e).le)
  | negative =>
    have hroot : UnpackedFloat.sqrt binary64 (.finite .negative m e hm) = .notANumber := rfl
    rw [hsqrt, hparts, hroot]
    decide

end Binary64
end DeskCalculator
