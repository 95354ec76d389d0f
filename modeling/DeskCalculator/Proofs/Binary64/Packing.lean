import DeskCalculator.Binary64

/-!
# Doubles and their parts

A double is determined by its parts (`ofParts_parts`), and the parts of a finite one
are canonical: the mantissa has 53 bits, or fewer at the least exponent
(`canonical_of_parts`).  Canonical parts are those of a double (`parts_ofParts`).
-/

namespace DeskCalculator
namespace Binary64

open Float.Model (UnpackedFloat)
open Float.Model.Format (binary64)
open Float.Model.UnpackedFloat (Sign packComponents unpackSign unpackExponent unpackMantissa
  unpackExponent_packComponents unpackMantissa_packComponents)

/-! ## Fields -/

/-- The sign, the exponent and the mantissa make up the bits. -/
theorem packComponents_fields (b : BitVec binary64.numBits) :
    packComponents binary64 (Sign.ofBitVec (unpackSign b)) (unpackExponent b)
      (unpackMantissa b) = b := by
  have hsign : ∀ v : BitVec 1, (Sign.ofBitVec v).toBitVec = v := by decide
  apply BitVec.eq_of_getLsbD_eq
  intro i hi
  dsimp only [Float.Model.Format.numBits] at hi
  unfold packComponents unpackSign unpackExponent unpackMantissa
  rw [hsign]
  simp only [BitVec.getLsbD_append, BitVec.getLsbD_cast, BitVec.getLsbD_extractLsb]
  split
  · rename_i hmantissa
    have hlt : i < 52 - 1 - 0 + 1 := by omega
    simp [hlt]
  split
  · rename_i hmantissa hexponent
    have hlt : i - 52 < 52 + 11 - 1 - 52 + 1 := by omega
    have hbit : 52 + (i - 52) = i := by omega
    simp [hlt, hbit]
  · rename_i hmantissa hexponent
    have hlt : i - 52 - 11 < 52 + 11 - (52 + 11) + 1 := by omega
    have hbit : 52 + 11 + (i - 52 - 11) = i := by omega
    simp [hlt, hbit]

/-- The mantissa of a normal double is its field behind a leading one. -/
theorem toNat_leading_one (v : BitVec 52) : (1#1 ++ v).toNat = 2 ^ (52 : Nat) + v.toNat := by
  rw [BitVec.toNat_append, ← Nat.shiftLeft_add_eq_or_of_lt v.isLt]
  rfl

/-- The leading one is left out of the field. -/
theorem ofNat_leading_one (v : BitVec 52) : BitVec.ofNat 52 (2 ^ (52 : Nat) + v.toNat) = v := by
  apply BitVec.eq_of_toNat_eq
  rw [BitVec.toNat_ofNat, Nat.add_mod_left, Nat.mod_eq_of_lt v.isLt]

theorem log2_leading_one (v : BitVec 52) : (2 ^ (52 : Nat) + v.toNat).log2 = 52 := by
  have hlt := v.isLt
  rw [Nat.log2_eq_iff (by omega)]
  omega

/-- An exponent field that is not all ones is less than `2047`. -/
theorem toNat_exponent_lt {v : BitVec 11} (h : v ≠ -1#11) : v.toNat < 2047 := by
  have hlt := v.isLt
  refine Nat.lt_of_le_of_ne (by omega) fun heq => h ?_
  apply BitVec.eq_of_toNat_eq
  rw [heq]
  rfl

theorem toNat_pos_of_ne_zero {n : Nat} {v : BitVec n} (h : v ≠ 0#n) : 0 < v.toNat :=
  Nat.pos_of_ne_zero fun hzero => h (BitVec.eq_of_toNat_eq (by simpa using hzero))

/-! ## Canonical parts -/

/-- The mantissa and exponent of a finite double other than zero: there are 53 bits, or
fewer at the least exponent. -/
structure Canonical (m : Nat) (e : Int) : Prop where
  /-- There are at most 53 bits. -/
  lt : m < 2 ^ (53 : Nat)
  /-- No bit lies below the least exponent. -/
  le : -1074 ≤ e
  /-- There are 53 bits, but for the least exponent. -/
  normal : 2 ^ (52 : Nat) ≤ m ∨ e = -1074

/-- Bits are unpacked to a canonical mantissa and exponent. -/
theorem canonical_of_unpack {b : BitVec binary64.numBits} {s : Sign} {m : Nat} {e : Int}
    {hm : 0 < m} (h : UnpackedFloat.unpack binary64 b = .finite s m e hm) : Canonical m e := by
  unfold UnpackedFloat.unpack at h
  dsimp only at h
  have hbias : ((binary64.exponentBias : Nat) : Int) + (52 : Nat) = 1075 := by decide
  rw [hbias] at h
  by_cases hones : unpackExponent b = -1#11
  · rw [if_pos hones] at h
    by_cases hmantissa : unpackMantissa b = 0#52
    · rw [if_pos hmantissa] at h
      cases h
    · rw [if_neg hmantissa] at h
      cases h
  rw [if_neg hones] at h
  by_cases hzeros : unpackExponent b = 0#11
  · rw [if_pos hzeros] at h
    by_cases hmantissa : unpackMantissa b = 0#52
    · rw [dif_pos hmantissa] at h
      cases h
    · rw [dif_neg hmantissa] at h
      cases h
      have hlt : (unpackMantissa b).toNat < 2 ^ (52 : Nat) := (unpackMantissa b).isLt
      have hexponent : (unpackExponent b).toNat = 0 := by rw [hzeros]; rfl
      exact ⟨by omega, by omega, Or.inr (by omega)⟩
  · rw [if_neg hzeros] at h
    cases h
    have hpos := toNat_pos_of_ne_zero hzeros
    have hlt : (unpackMantissa b).toNat < 2 ^ (52 : Nat) := (unpackMantissa b).isLt
    rw [toNat_leading_one]
    exact ⟨by omega, by omega, Or.inl (by omega)⟩

/-- The parts of a finite double are canonical. -/
theorem canonical_of_parts {x : Float} {s : Sign} {m : Nat} {e : Int} {hm : 0 < m}
    (h : parts x = .finite s m e hm) : Canonical m e :=
  canonical_of_unpack h

/-! ## Packing the parts -/

theorem pack_subnormal {v : BitVec 52} (s : Sign) (hpos : 0 < v.toNat) :
    UnpackedFloat.pack binary64 (.finite s v.toNat (-1074) hpos) =
      packComponents binary64 s 0#11 v := by
  have hlog : v.toNat.log2 < 52 := (Nat.log2_lt (Nat.ne_of_gt hpos)).2 v.isLt
  have hbits : ¬ v.toNat.log2 + 1 = binary64.mantissaBits := by
    have h53 : binary64.mantissaBits = 53 := rfl
    omega
  have hmantissa : BitVec.ofNat 52 v.toNat = v := by simp
  unfold UnpackedFloat.pack
  dsimp only
  rw [if_neg (by decide), if_neg hbits, hmantissa]

theorem pack_normal {m : Nat} {v : BitVec 52} {w : BitVec 11} (s : Sign) (hones : w ≠ -1#11)
    (hm : m = 2 ^ (52 : Nat) + v.toNat) (hpos : 0 < m) :
    UnpackedFloat.pack binary64 (.finite s m ((w.toNat : Int) - 1075) hpos) =
      packComponents binary64 s w v := by
  subst hm
  have hlt := toNat_exponent_lt hones
  have hbias : (binary64.exponentBias : Int) = 1023 := rfl
  have hexponent :
      ((w.toNat : Int) - 1075 + binary64.exponentBias + (52 : Nat)).toNat = w.toNat := by
    rw [hbias]
    omega
  have hbits : (2 ^ (52 : Nat) + v.toNat).log2 + 1 = binary64.mantissaBits := by
    rw [log2_leading_one]
    rfl
  have hfits : ¬ 2 ^ (11 : Nat) ≤ w.toNat + 1 := by omega
  have hfield : BitVec.ofNat 11 w.toNat = w := by simp
  unfold UnpackedFloat.pack
  dsimp only
  rw [hexponent, if_neg hfits, if_pos hbits, ofNat_leading_one, hfield]

/-- Unpacking loses nothing, as there is only one pattern for what is not a number. -/
theorem pack_unpack {b : BitVec binary64.numBits} (hvalid : binary64.Valid b) :
    UnpackedFloat.pack binary64 (UnpackedFloat.unpack binary64 b) = b := by
  have hfields := packComponents_fields b
  unfold UnpackedFloat.unpack
  dsimp only
  have hbias : ((binary64.exponentBias : Nat) : Int) + (52 : Nat) = 1075 := by decide
  rw [hbias]
  by_cases hones : unpackExponent b = -1#11
  · rw [if_pos hones]
    by_cases hmantissa : unpackMantissa b = 0#52
    · rw [if_pos hmantissa]
      rw [hones, hmantissa] at hfields
      exact hfields
    · rw [if_neg hmantissa]
      exact (hvalid.eq_packedNaN hones hmantissa).symm
  rw [if_neg hones]
  by_cases hzeros : unpackExponent b = 0#11
  · rw [if_pos hzeros]
    by_cases hmantissa : unpackMantissa b = 0#52
    · rw [dif_pos hmantissa]
      rw [hzeros, hmantissa] at hfields
      exact hfields
    · rw [dif_neg hmantissa]
      have hpacked := pack_subnormal (Sign.ofBitVec (unpackSign b))
        (toNat_pos_of_ne_zero hmantissa)
      rw [hzeros] at hfields ⊢
      exact hpacked.trans hfields
  · rw [if_neg hzeros]
    exact (pack_normal _ hones (toNat_leading_one _) _).trans hfields

/-- **A double is determined by its parts.** -/
theorem ofParts_parts (x : Float) : ofParts (parts x) = x := by
  obtain ⟨⟨bits, hvalid⟩⟩ := x
  have hmodel : Float.Model.pack (Float.Model.unpack ⟨bits, hvalid⟩) = ⟨bits, hvalid⟩ := by
    unfold Float.Model.unpack Float.Model.pack
    congr 1
    exact congrArg UInt64.ofBitVec (pack_unpack hvalid)
  exact congrArg Float.ofModel hmodel

/-! ## Unpacking the bits of parts -/

theorem sign_unpackSign_packComponents (s : Sign) (w : BitVec 11) (v : BitVec 52) :
    Sign.ofBitVec (unpackSign (packComponents binary64 s w v)) = s := by
  have hsign : unpackSign (packComponents binary64 s w v) = s.toBitVec := by
    show (s.toBitVec ++ w ++ v).extractLsb' 63 1 = s.toBitVec
    rw [BitVec.extractLsb'_append_eq_of_le (by decide),
      BitVec.extractLsb'_append_eq_of_le (by decide)]
    cases s <;> rfl
  rw [hsign]
  cases s <;> rfl

/-- Bits are unpacked by their fields: a zero exponent is that of the subnormal numbers. -/
theorem unpack_subnormal {b : BitVec binary64.numBits} {s : Sign} {v : BitVec 52}
    (hs : Sign.ofBitVec (unpackSign b) = s) (hw : unpackExponent b = 0#11)
    (hv : unpackMantissa b = v) (hpos : 0 < v.toNat) :
    UnpackedFloat.unpack binary64 b = .finite s v.toNat (-1074) hpos := by
  subst hs hv
  have hne : unpackMantissa b ≠ 0#52 := by
    intro h
    rw [h] at hpos
    exact absurd hpos (by decide)
  unfold UnpackedFloat.unpack
  dsimp only
  rw [hw, if_neg (by decide), if_pos rfl, dif_neg hne]
  rfl

theorem finite_congr {s : Sign} {m n : Nat} {e : Int} (h : m = n) (hm : 0 < m) (hn : 0 < n) :
    UnpackedFloat.finite s m e hm = .finite s n e hn := by
  subst h
  rfl

/-- Any other exponent but the greatest is that of a normal number. -/
theorem unpack_normal {b : BitVec binary64.numBits} {s : Sign} {w : BitVec 11} {v : BitVec 52}
    (hs : Sign.ofBitVec (unpackSign b) = s) (hw : unpackExponent b = w)
    (hv : unpackMantissa b = v) (hones : w ≠ -1#11) (hzeros : w ≠ 0#11)
    (hpos : 0 < 2 ^ (52 : Nat) + v.toNat) :
    UnpackedFloat.unpack binary64 b =
      .finite s (2 ^ (52 : Nat) + v.toNat) ((w.toNat : Int) - 1075) hpos := by
  subst hs hw hv
  unfold UnpackedFloat.unpack
  dsimp only
  rw [if_neg hones, if_neg hzeros]
  exact finite_congr (toNat_leading_one _) _ _

/-- **Canonical parts are the parts of a double**, unless the exponent is too large. -/
theorem parts_ofParts {m : Nat} {e : Int} (s : Sign) (hc : Canonical m e) (he : e ≤ 971)
    (hm : 0 < m) : parts (ofParts (.finite s m e hm)) = .finite s m e hm := by
  show UnpackedFloat.unpack binary64 (UnpackedFloat.pack binary64 (.finite s m e hm)) = _
  have hle := hc.le
  have hlt := hc.lt
  by_cases hnormal : 2 ^ (52 : Nat) ≤ m
  · obtain ⟨v, hv⟩ : ∃ v : BitVec 52, m = 2 ^ (52 : Nat) + v.toNat :=
      ⟨BitVec.ofNat 52 (m - 2 ^ (52 : Nat)), by rw [BitVec.toNat_ofNat]; omega⟩
    obtain ⟨w, hw⟩ : ∃ w : BitVec 11, e = (w.toNat : Int) - 1075 :=
      ⟨BitVec.ofNat 11 (e + 1075).toNat, by rw [BitVec.toNat_ofNat]; omega⟩
    have hones : w ≠ -1#11 := by
      rintro rfl
      have htoNat : (-1#11).toNat = 2047 := rfl
      omega
    have hzeros : w ≠ 0#11 := by
      rintro rfl
      have htoNat : (0#11).toNat = 0 := rfl
      omega
    subst hv hw
    rw [pack_normal s hones rfl hm]
    exact unpack_normal (sign_unpackSign_packComponents s w v)
      (unpackExponent_packComponents ..) (unpackMantissa_packComponents ..) hones hzeros hm
  · obtain rfl : e = -1074 := hc.normal.resolve_left hnormal
    obtain ⟨v, rfl⟩ : ∃ v : BitVec 52, m = v.toNat :=
      ⟨BitVec.ofNat 52 m, by rw [BitVec.toNat_ofNat]; omega⟩
    rw [pack_subnormal s hm]
    exact unpack_subnormal (sign_unpackSign_packComponents s 0#11 v)
      (unpackExponent_packComponents ..) (unpackMantissa_packComponents ..) hm

@[simp] theorem parts_zero (s : Sign) : parts (ofParts (.zero s)) = .zero s := by
  cases s <;> rfl

@[simp] theorem parts_infinity (s : Sign) : parts (ofParts (.infinity s)) = .infinity s := by
  cases s <;> rfl

@[simp] theorem parts_notANumber : parts (ofParts .notANumber) = .notANumber := rfl

end Binary64
end DeskCalculator
