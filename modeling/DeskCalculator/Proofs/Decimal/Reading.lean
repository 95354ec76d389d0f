import Mathlib.Data.List.TakeWhile
import DeskCalculator.Decimal.Literal
import DeskCalculator.Decimal.Positional
import DeskCalculator.Proofs.Decimal.Exact

/-!
# Printed numbers are read back

The text of a finite double is a literal, and its value is the double
(`exists_literal_of_isFinite`).  The text of an integer is a literal as well
(`exists_literal_of_integer`).  What is not finite is written in letters
(`chars_of_not_isFinite`).
-/

namespace DeskCalculator
namespace Decimal

open Float.Model.UnpackedFloat (Sign)

variable {digits rest fraction : List Char} {x : Float}

/-! ## Texts that are literals -/

namespace Literal

/-- A sign in front of a digit is read as the sign. -/
theorem takeSign_signChars (s : Sign) {c : Char} (hc : c.isDigit = true) :
    takeSign (signChars s ++ c :: rest) = (s, c :: rest) := by
  cases s with
  | negative => rfl
  | positive =>
    show takeSign (c :: rest) = _
    unfold takeSign
    split
    · rename_i hminus
      cases hminus
      cases hc
    · rename_i hplus
      cases hplus
      cases hc
    · rfl

/-- Digits and what is read as a fraction are a literal. -/
theorem ofText?_of_takeFraction (s : Sign) (hdigits : ∀ c ∈ digits, c.isDigit = true)
    (hne : digits ≠ []) (hstop : rest.takeWhile Char.isDigit = [])
    (hfraction : takeFraction rest = (fraction, [])) :
    ofText? (signChars s ++ (digits ++ rest)) = some ⟨s, digits, fraction, 0⟩ := by
  obtain ⟨c, later, rfl⟩ := List.exists_cons_of_ne_nil hne
  have hc : c.isDigit = true := hdigits c (List.mem_cons_self ..)
  have hsign : takeSign (signChars s ++ (c :: later ++ rest)) = (s, c :: later ++ rest) :=
    takeSign_signChars s hc
  have hwhole : (c :: later ++ rest).takeWhile Char.isDigit = c :: later := by
    rw [List.takeWhile_append_of_pos hdigits, hstop, List.append_nil]
  have hrest : (c :: later ++ rest).dropWhile Char.isDigit = rest := by
    have hsplit := List.takeWhile_append_dropWhile (p := Char.isDigit) (l := rest)
    rw [hstop, List.nil_append] at hsplit
    rw [List.dropWhile_append_of_pos hdigits, hsplit]
  unfold ofText?
  simp only [hsign, hwhole, hrest, hfraction]
  simp [exponent?]

/-- Digits are a literal. -/
theorem ofText?_digits (s : Sign) (hdigits : ∀ c ∈ digits, c.isDigit = true)
    (hne : digits ≠ []) : ofText? (signChars s ++ digits) = some ⟨s, digits, [], 0⟩ := by
  have hread : ofText? (signChars s ++ (digits ++ [])) = some ⟨s, digits, [], 0⟩ :=
    ofText?_of_takeFraction s hdigits hne rfl rfl
  rwa [List.append_nil] at hread

/-- Digits on both sides of a point are a literal. -/
theorem ofText?_point (s : Sign) (hdigits : ∀ c ∈ digits, c.isDigit = true) (hne : digits ≠ [])
    (hfraction : ∀ c ∈ fraction, c.isDigit = true) :
    ofText? (signChars s ++ (digits ++ '.' :: fraction)) = some ⟨s, digits, fraction, 0⟩ := by
  refine ofText?_of_takeFraction s hdigits hne rfl ?_
  rw [takeFraction, List.takeWhile_eq_self_iff.2 hfraction, List.dropWhile_eq_nil_iff.2 hfraction]

end Literal

/-! ## Where the point stands -/

/-- The point is behind at least one digit and before as many as there are places. -/
theorem exists_insertPoint (digits : List Char) (places : Nat) :
    ∃ whole fraction, insertPoint digits places = whole ++ '.' :: fraction ∧
      whole ++ fraction = List.replicate (places + 1 - digits.length) '0' ++ digits ∧
      whole ≠ [] ∧ fraction.length = places := by
  have hlength :
      (List.replicate (places + 1 - digits.length) '0' ++ digits).length ≥ places + 1 := by
    rw [List.length_append, List.length_replicate]
    omega
  rw [insertPoint]
  generalize List.replicate (places + 1 - digits.length) '0' ++ digits = padded at hlength ⊢
  refine ⟨padded.take (padded.length - places), padded.drop (padded.length - places), rfl,
    List.take_append_drop .., ?_, ?_⟩
  · refine List.ne_nil_of_length_pos ?_
    rw [List.length_take]
    omega
  · rw [List.length_drop]
    omega

/-! ## Values of printed texts -/

theorem isDigit_of_mem_toDigits (n : Nat) : ∀ c ∈ Nat.toDigits 10 n, c.isDigit = true :=
  fun _ hc => Nat.isDigit_of_mem_toDigits (by decide) (by decide) hc

theorem isDigit_of_mem_replicate (k : Nat) : ∀ c ∈ List.replicate k '0', c.isDigit = true := by
  intro c hc
  rw [(List.mem_replicate.1 hc).2]
  rfl

/-- What is rounded to an infinity is not finite. -/
theorem exponent_lt_of_isFinite {d : Scaled} (h : d.toFloat.isFinite = true)
    (hne : d.digits ≠ 0) : d.exponent < 309 := by
  refine Int.not_le.1 fun hle => ?_
  rw [Scaled.toFloat, Binary64.nearestDecimal, if_neg hne, if_pos hle] at h
  cases hsign : d.sign <;> rw [hsign] at h <;> cases h

/-- **The text of a decimal is a literal with the decimal's value.** -/
theorem exists_literal_of_scaled {d : Scaled} (h : d.toFloat.isFinite = true) :
    ∃ l, Literal.ofText? d.chars = some l ∧ l.value = d.toFloat := by
  have hdigits := isDigit_of_mem_toDigits d.digits
  have hvalue : Nat.ofDigitChars 10 (Nat.toDigits 10 d.digits) 0 = d.digits :=
    Nat.ofDigitChars_ten_toDigits
  rw [Scaled.chars]
  split
  · rename_i hle
    obtain ⟨k, hk⟩ := Int.eq_ofNat_of_zero_le hle
    refine ⟨_, Literal.ofText?_digits d.sign (List.forall_mem_append.2
      ⟨hdigits, isDigit_of_mem_replicate _⟩) (by simp), ?_⟩
    have hlt : d.digits ≠ 0 → k < 309 := by
      intro hne
      have hexponent := exponent_lt_of_isFinite h hne
      omega
    rw [Scaled.toFloat, hk, ← Binary64.nearestDecimal_mul_pow d.sign hlt, Literal.value]
    simp [hvalue, Nat.ofDigitChars_append, Nat.ofDigitChars_replicate_zero, Nat.mul_comm]
  · rename_i hnot
    obtain ⟨whole, fraction, hpoint, hsplit, hne, hlength⟩ :=
      exists_insertPoint (Nat.toDigits 10 d.digits) (-d.exponent).toNat
    have hall : ∀ c ∈ whole ++ fraction, c.isDigit = true := by
      rw [hsplit]
      exact List.forall_mem_append.2 ⟨isDigit_of_mem_replicate _, hdigits⟩
    obtain ⟨hwhole, hfraction⟩ := List.forall_mem_append.1 hall
    rw [hpoint]
    refine ⟨_, Literal.ofText?_point d.sign hwhole hne hfraction, ?_⟩
    have hexponent : 0 - (fraction.length : Int) = d.exponent := by omega
    rw [Literal.value, Scaled.toFloat, hsplit, hexponent, Nat.ofDigitChars_append,
      Nat.ofDigitChars_replicate_zero, Nat.mul_zero, hvalue]

/-- **The text of a finite double is a literal with this value.** -/
theorem exists_literal_of_isFinite (hx : x.isFinite = true) :
    ∃ l, Literal.ofText? (chars x) = some l ∧ l.value = x := by
  have hfinite : (Binary64.parts x).isFinite = true := hx
  have hparts := Binary64.ofParts_parts x
  rw [chars]
  split
  · rename_i hnan
    rw [hnan] at hfinite
    cases hfinite
  · rename_i s hinfinity
    rw [hinfinity] at hfinite
    cases hfinite
  · rename_i s hzero
    rw [hzero] at hparts
    exact ⟨_, Literal.ofText?_digits s (List.all_eq_true.1 rfl) (by simp), hparts⟩
  · rename_i s m e hm hpos
    have hread := toFloat_shortest hpos
    obtain ⟨l, hl, hvalue⟩ := exists_literal_of_scaled (d := shortest x s m e) (by rwa [hread])
    exact ⟨l, hl, hvalue.trans hread⟩

/-- What is not finite is written in letters. -/
theorem chars_of_not_isFinite (h : x.isFinite = false) :
    chars x = "NaN".toList ∨ chars x = "inf".toList ∨ chars x = "-inf".toList := by
  have hfinite : (Binary64.parts x).isFinite = false := h
  rw [chars]
  split
  · exact Or.inl rfl
  · rename_i s _
    cases s with
    | positive => exact Or.inr (Or.inl rfl)
    | negative => exact Or.inr (Or.inr rfl)
  · rename_i s hzero
    rw [hzero] at hfinite
    cases hfinite
  · rename_i s m e hm hpos
    rw [hpos] at hfinite
    cases hfinite

/-- The text of an integer is a literal whose value is the nearest double. -/
theorem exists_literal_of_integer (i : Int) :
    ∃ l, Literal.ofText? (integerChars i) = some l ∧
      l.value = Binary64.nearestDecimal (if i < 0 then .negative else .positive) i.natAbs 0 := by
  refine ⟨_, Literal.ofText?_digits _ (isDigit_of_mem_toDigits i.natAbs) Nat.toDigits_ne_nil, ?_⟩
  rw [Literal.value]
  simp

end Decimal
end DeskCalculator
