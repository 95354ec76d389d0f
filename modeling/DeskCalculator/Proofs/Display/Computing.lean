import DeskCalculator.Display.Basic
import DeskCalculator.Proofs.Token.Writing

/-!
# Computing again

A result is shown as a text, and the text can be computed again.  A finite result
comes out unchanged (`evaluateChars_chars`), though it was normalized before it was
printed.  All other outcomes are shown as words that stand for nothing
(`evaluateChars_of_no_token`), so from the second computation on they are errors.
-/

namespace DeskCalculator

/-! ## Texts of one word -/

/-- The value of a number alone. -/
theorem evaluateChars_of_number {word : List Char} {x : Float}
    (h : Token.ofWord? word = some (.number x)) :
    evaluateChars word = .ok (Number.normalize x) := by
  have hwords : ReversePolish.ofChars word = .ok [.number x] := by
    rw [ReversePolish.ofChars, Text.words_of_isWord (Token.isWord_of_ofWord? h),
      ReversePolish.ofWords, ReversePolish.Conversion.words, Token.read, h]
    rfl
  rw [evaluateChars, hwords]
  rfl

/-- A word that stands for nothing is malformed. -/
theorem evaluateChars_of_no_token {word : List Char} (hword : Text.IsWord word)
    (h : Token.ofWord? word = none) :
    evaluateChars word = .error (.parse (.malformedToken (String.ofList word) 0)) := by
  rw [evaluateChars, ReversePolish.ofChars, Text.words_of_isWord hword, ReversePolish.ofWords,
    ReversePolish.Conversion.words, Token.read, h]

theorem evaluateChars_errorChars :
    evaluateChars Display.errorChars = .error (.parse (.malformedToken "ERROR" 0)) :=
  evaluateChars_of_no_token (Text.isWord_of_all (by decide) rfl) rfl

/-! ## Results -/

namespace Number

/-- Is the result neither infinite nor undefined? -/
def isFinite : Number → Bool
  | .integer _ => true
  | .real x => x.isFinite

/-- Every result is normalized. -/
theorem exists_normalize {text : List Char} {n : Number} (h : evaluateChars text = .ok n) :
    ∃ x, n = normalize x := by
  rw [evaluateChars] at h
  split at h
  · rename_i tokens _
    rw [ReversePolish.evaluate] at h
    split at h
    · rename_i s _
      cases hfinish : s.finish with
      | ok x =>
        rw [hfinish] at h
        cases h
        exact ⟨x, rfl⟩
      | error e =>
        rw [hfinish] at h
        cases h
    · cases h
  · cases h

/-- An integer of 64 bits is found again in its value. -/
theorem toInt_of_int64? {x : Float} {n : Int64} (h : Binary64.int64? x = some n) :
    Binary64.integer? x = some n.toInt ∧
      ∀ y, Binary64.integer? y = some n.toInt → Binary64.int64? y = some n := by
  unfold Binary64.int64? at h
  split at h
  · rename_i i hi
    split at h
    · rename_i hrange
      cases h
      have htoInt : (Int64.ofInt i).toInt = i :=
        Int64.toInt_ofInt_of_le hrange.1 hrange.2
      rw [htoInt]
      refine ⟨hi, ?_⟩
      intro y hy
      rw [Binary64.int64?, hy]
      exact if_pos hrange
    · cases h
  · cases h

/-- **A finite result has a text whose value it is.** -/
theorem evaluateChars_chars {x : Float} (h : (normalize x).isFinite = true) :
    evaluateChars (normalize x).chars = .ok (normalize x) := by
  cases hn : Binary64.int64? x with
  | some n =>
    have hnormal : normalize x = .integer n := by rw [normalize, hn]
    obtain ⟨hinteger, hagain⟩ := toInt_of_int64? hn
    obtain ⟨l, hread, hvalue⟩ := Decimal.exists_literal_of_integer n.toInt
    have hint : Binary64.int64? l.value = some n := by
      rw [hvalue]
      exact hagain _ (Binary64.integer?_nearestDecimal hinteger)
    rw [hnormal, chars, evaluateChars_of_number (Token.ofWord?_of_ofText? hread), normalize, hint]
  | none =>
    have hnormal : normalize x = .real x := by rw [normalize, hn]
    rw [hnormal] at h
    obtain ⟨l, hread, hvalue⟩ := Decimal.exists_literal_of_isFinite (x := x) h
    rw [hnormal, chars, evaluateChars_of_number (Token.ofWord?_of_ofText? hread), hvalue, hnormal]

/-- The text of a result that is not finite is a word that stands for nothing. -/
theorem evaluateChars_chars_of_not_isFinite {n : Number} (h : n.isFinite = false) :
    evaluateChars n.chars = .error (.parse (.malformedToken n.text 0)) := by
  cases n with
  | integer n => cases h
  | real x =>
    obtain ⟨hword, hnothing⟩ := Token.ofWord?_chars_of_not_isFinite h
    exact evaluateChars_of_no_token hword hnothing

end Number

/-! ## Two computations in a row -/

namespace Display

@[simp] theorem chars_ofText (text : String) : (ofText text).chars = text.toList :=
  List.reverse_reverse _

theorem compute_ofText (text : String) :
    (ofText text).compute =
      (evaluate text, ofChars (outcomeChars (evaluate text))) := by
  rw [compute, chars_ofText]
  rfl

/-- The display of a result is that of its text. -/
theorem ofText_text (n : Number) : ofText n.text = ofChars n.chars := by
  rw [ofText, Number.text, String.toList_ofList]

/-- **A result can be computed again.**  A finite result has itself as the value of its
text, so a second computation gives the same result and leaves the same text.  The text
of an infinite or undefined result stands for nothing, so that a second computation fails
at the first word, and after a failure it fails at the reported `ERROR`. -/
theorem compute_compute (text : String) :
    (∀ n, evaluate text = .ok n → n.isFinite = true →
      evaluate n.text = .ok n ∧
        (ofText text).compute = (.ok n, ofText n.text) ∧
        (ofText text).compute.2.compute = (.ok n, ofText n.text)) ∧
    (∀ n, evaluate text = .ok n → n.isFinite = false →
      (ofText text).compute = (.ok n, ofText n.text) ∧
        (ofText text).compute.2.compute =
          (.error (.parse (.malformedToken n.text 0)), ofText "ERROR")) ∧
    (∀ e, evaluate text = .error e →
      (ofText text).compute = (.error e, ofText "ERROR") ∧
        (ofText text).compute.2.compute =
          (.error (.parse (.malformedToken "ERROR" 0)), ofText "ERROR")) := by
  have hshown : ∀ n, evaluate text = .ok n →
      (ofText text).compute = (.ok n, ofText n.text) := by
    intro n hn
    rw [compute_ofText, hn, ofText_text]
    rfl
  have hagain : ∀ n : Number, evaluate n.text = evaluateChars n.chars := by
    intro n
    rw [evaluate, Number.text, String.toList_ofList]
  refine ⟨?finite, ?infinite, ?failed⟩
  case finite =>
    intro n hn hfinite
    obtain ⟨x, rfl⟩ := Number.exists_normalize hn
    have hvalue : evaluate (Number.normalize x).text = .ok (Number.normalize x) := by
      rw [hagain, Number.evaluateChars_chars hfinite]
    refine ⟨hvalue, hshown _ hn, ?_⟩
    rw [hshown _ hn, compute_ofText, hvalue, ofText_text]
    rfl
  case infinite =>
    intro n hn hfinite
    refine ⟨hshown n hn, ?_⟩
    rw [hshown n hn, compute_ofText, hagain, Number.evaluateChars_chars_of_not_isFinite hfinite]
    rfl
  case failed =>
    intro e he
    have hfirst : (ofText text).compute = (.error e, ofText "ERROR") := by
      rw [compute_ofText, he]
      rfl
    have herror : evaluate "ERROR" = .error (.parse (.malformedToken "ERROR" 0)) :=
      evaluateChars_errorChars
    refine ⟨hfirst, ?_⟩
    rw [hfirst, compute_ofText, herror]
    rfl

example : (ofText "0.1 + 0.2").compute.2.compute =
    (.ok (.real 0.30000000000000004), ofText "0.30000000000000004") := by decide +kernel

example : (ofText "1e999 - 1e999").compute.2.compute =
    (.error (.parse (.malformedToken "NaN" 0)), ofText "ERROR") := by decide +kernel

end Display
end DeskCalculator
