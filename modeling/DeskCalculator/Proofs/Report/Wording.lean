import DeskCalculator.Report
import DeskCalculator.Proofs.ReversePolish.Rejection
import DeskCalculator.Proofs.Token.Writing

/-!
# The wording of outcomes

Results, sequences and messages are single lines (`oneLine_message`): the only parts
of them that are not fixed are numbers, operators and words, and none of these has a
newline in it.  A result or sequence never reads `ERROR`, since no number and no
symbol is written with an `R`.
-/

namespace DeskCalculator

/-! ## Characters of numbers -/

namespace Decimal

/-- The characters of written numbers: those of literals, and the letters of `NaN` and
`inf`. -/
def isNumberChar (c : Char) : Bool :=
  Literal.isLiteralChar c || ['N', 'a', 'i', 'n', 'f'].contains c

theorem isNumberChar_of_ofText? {text : List Char} {l : Literal}
    (h : Literal.ofText? text = some l) {c : Char} (hc : c ∈ text) : isNumberChar c = true := by
  rw [isNumberChar, (Literal.isLiteralChar_of_ofText? h).2 c hc, Bool.true_or]

theorem isNumberChar_of_mem_chars {x : Float} {c : Char} (hc : c ∈ chars x) :
    isNumberChar c = true := by
  cases hx : x.isFinite with
  | true =>
    obtain ⟨l, hl, -⟩ := exists_literal_of_isFinite hx
    exact isNumberChar_of_ofText? hl hc
  | false =>
    have hall : (chars x).all isNumberChar = true := by
      rcases chars_of_not_isFinite hx with hchars | hchars | hchars
      all_goals
        rw [hchars]
        rfl
    exact List.all_eq_true.1 hall c hc

theorem isNumberChar_of_mem_integerChars {n : Int} {c : Char} (hc : c ∈ integerChars n) :
    isNumberChar c = true := by
  obtain ⟨l, hl, -⟩ := exists_literal_of_integer n
  exact isNumberChar_of_ofText? hl hc

end Decimal

theorem Number.isNumberChar_of_mem_chars {n : Number} {c : Char} (hc : c ∈ n.chars) :
    Decimal.isNumberChar c = true := by
  cases n with
  | integer i => exact Decimal.isNumberChar_of_mem_integerChars hc
  | real x => exact Decimal.isNumberChar_of_mem_chars hc

/-! ## Texts of a single line -/

/-- The text has no newline. -/
def OneLine (text : String) : Prop :=
  '\n' ∉ text.toList

instance (text : String) : Decidable (OneLine text) :=
  inferInstanceAs (Decidable ('\n' ∉ text.toList))

@[simp] theorem oneLine_append {text other : String} :
    OneLine (text ++ other) ↔ OneLine text ∧ OneLine other := by
  simp [OneLine]

theorem oneLine_ofList {text : List Char} : OneLine (String.ofList text) ↔ '\n' ∉ text := by
  simp [OneLine]

theorem oneLine_toString_char {c : Char} : OneLine (toString c) ↔ '\n' ≠ c := by
  have hchars : (toString c).toList = [c] := String.toList_singleton c
  simp [OneLine, hchars]

@[simp] theorem oneLine_repr (n : Nat) : OneLine n.repr := by
  intro hmem
  rw [Nat.toList_repr] at hmem
  have hdigit := Nat.isDigit_of_mem_toDigits (by decide) (by decide) hmem
  cases hdigit

@[simp] theorem oneLine_decimal (x : Float) : OneLine (Decimal.text x) := by
  rw [Decimal.text, oneLine_ofList]
  intro hmem
  cases Decimal.isNumberChar_of_mem_chars hmem

@[simp] theorem oneLine_symbol (op : Operator) : OneLine (toString op.symbol) := by
  rw [oneLine_toString_char]
  exact Operator.of_all op (by decide)

@[simp] theorem oneLine_binarySymbol (op : BinaryOperator) : OneLine (toString op.symbol) :=
  oneLine_symbol (.binary op)

theorem oneLine_word {text word : List Char} (h : word ∈ Text.words text) :
    OneLine (String.ofList word) := by
  rw [oneLine_ofList]
  intro hmem
  cases (Text.isWord_of_mem_words h).2 '\n' hmem

/-! ## Messages -/

theorem DomainError.oneLine_message (e : DomainError) : OneLine e.message := by
  unfold message
  cases e <;> simp +decide

theorem EvaluationError.oneLine_message (e : EvaluationError) : OneLine e.message := by
  unfold message
  cases e with
  | missingOperand op => simp +decide
  | malformedExpression remaining => simp +decide
  | domain e => exact e.oneLine_message

/-- The message of a malformed word contains the word. -/
theorem ParseError.oneLine_message {e : ParseError}
    (h : ∀ word position, e = .malformedToken word position → OneLine word) :
    OneLine e.message := by
  unfold message
  cases e with
  | malformedToken word position => simp +decide [h word position rfl]
  | unbalancedParenthesis position => simp +decide

/-! ## Results and sequences -/

theorem Number.oneLine_text (n : Number) : OneLine n.text := by
  rw [text, oneLine_ofList]
  intro hmem
  cases isNumberChar_of_mem_chars hmem

theorem Number.text_ne_error (n : Number) : n.text ≠ "ERROR" := by
  intro h
  have hchars : n.chars = "ERROR".toList := by
    rw [← h, text, String.toList_ofList]
  have hmem : 'R' ∈ n.chars := by
    rw [hchars]
    decide
  cases isNumberChar_of_mem_chars hmem

theorem Token.chars_ne_error (t : Token) : t.chars ≠ Display.errorChars := by
  intro h
  have hmem : 'R' ∈ t.chars := by
    rw [h]
    decide
  cases t with
  | number x => cases Decimal.isNumberChar_of_mem_chars hmem
  | operator op =>
    have hsymbol : op.symbol ≠ 'R' := Operator.of_all op (by decide)
    exact hsymbol (List.mem_singleton.1 hmem).symm
  | leftParenthesis => cases List.mem_singleton.1 hmem
  | rightParenthesis => cases List.mem_singleton.1 hmem

namespace ReversePolish

theorem oneLine_text (tokens : List Token) : OneLine (text tokens) := by
  have hwords : ∀ w ∈ tokens.map Token.chars, Text.IsWord w := by
    intro w hw
    obtain ⟨t, -, rfl⟩ := List.mem_map.1 hw
    exact t.isWord_chars
  rw [text, oneLine_ofList]
  intro hmem
  cases Text.eq_space_of_mem_intercalate hwords hmem (by decide)

/-- Read as words, a sequence written `ERROR` would be one token with this text. -/
theorem text_ne_error (tokens : List Token) : text tokens ≠ "ERROR" := by
  intro h
  have hwords : tokens.map Token.chars = [Display.errorChars] := by
    rw [← words_text, h]
    exact Text.words_of_isWord (Text.isWord_of_all (by decide) rfl)
  have hmem : Display.errorChars ∈ tokens.map Token.chars := by
    rw [hwords]
    exact List.mem_singleton_self _
  obtain ⟨t, -, ht⟩ := List.mem_map.1 hmem
  exact t.chars_ne_error ht

/-- A word that is reported as malformed is a word of the text. -/
theorem exists_word_of_malformedToken {ws : List (List Char)} {word : String} {position : Nat}
    (h : ofWords ws = .error (.malformedToken word position)) :
    ∃ w ∈ ws, word = String.ofList w := by
  rcases rejection_or_sound ws with ⟨e, hrejected⟩ | ⟨hsound, hmatched⟩
  · rw [hrejected.ofWords] at h
    cases h
    cases hrejected with
    | fault hfirst =>
      obtain ⟨earlier, w, later, rfl, -, hfault⟩ := hfirst.exists_split
      cases hfault
      exact ⟨w, by simp, rfl⟩
  · obtain ⟨tokens, hok⟩ := exists_ofWords_eq_ok hsound hmatched
    rw [hok] at h
    cases h

/-- So the message of a text that is rejected is a single line. -/
theorem oneLine_of_ofChars {text : List Char} {e : ParseError} (h : ofChars text = .error e) :
    OneLine e.message := by
  refine e.oneLine_message ?_
  rintro word position rfl
  obtain ⟨w, hw, rfl⟩ := exists_word_of_malformedToken h
  exact oneLine_word hw

end ReversePolish

theorem oneLine_of_evaluateChars {text : List Char} {e : CalculationError}
    (h : evaluateChars text = .error e) : OneLine e.message := by
  rw [evaluateChars] at h
  split at h
  · rename_i tokens _
    cases hvalue : ReversePolish.evaluate tokens with
    | ok n =>
      rw [hvalue] at h
      cases h
    | error cause =>
      rw [hvalue] at h
      cases h
      exact cause.oneLine_message
  · rename_i cause hparse
    cases h
    exact ReversePolish.oneLine_of_ofChars hparse

end DeskCalculator
