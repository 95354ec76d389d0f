import DeskCalculator.Proofs.Decimal.Reading
import DeskCalculator.Proofs.Token.Reading
import DeskCalculator.ReversePolish.Conversion

/-!
# Written sequences are read back

The text of a token is a word (`isWord_chars`), and unless the token is a number
that is infinite or undefined, this word stands for the token
(`ofWord?_chars_iff`).  So a sequence that is written with single spaces between
its tokens is cut into the same words again (`words_text`) and read back
(`map_read_words_text_iff`).
-/

namespace DeskCalculator

namespace Token

/-- Is the token no number, or a finite one? -/
def isFinite : Token → Bool
  | .number x => x.isFinite
  | _ => true

/-- What is no finite number is written as a word that stands for nothing. -/
theorem ofWord?_chars_of_not_isFinite {x : Float} (h : x.isFinite = false) :
    Text.IsWord (Decimal.chars x) ∧ ofWord? (Decimal.chars x) = none := by
  rcases Decimal.chars_of_not_isFinite h with hchars | hchars | hchars
  all_goals
    rw [hchars]
    exact ⟨Text.isWord_of_all (by decide) rfl, rfl⟩

/-- **A token is read back from its text** unless it is a number that is infinite or
undefined. -/
theorem ofWord?_chars_iff (t : Token) : ofWord? t.chars = some t ↔ t.isFinite = true := by
  cases t with
  | number x =>
    cases hx : x.isFinite with
    | true =>
      obtain ⟨l, hread, hvalue⟩ := Decimal.exists_literal_of_isFinite hx
      simp [chars, isFinite, hx, ofWord?_of_ofText? hread, hvalue]
    | false => simp [chars, isFinite, hx, (ofWord?_chars_of_not_isFinite hx).2]
  | operator op => simp [chars, isFinite, ofWord?_symbol]
  | leftParenthesis => simp [chars, isFinite, ofWord?_leftParenthesis]
  | rightParenthesis => simp [chars, isFinite, ofWord?_rightParenthesis]

/-- The text of a token is a word. -/
theorem isWord_chars (t : Token) : Text.IsWord t.chars := by
  cases hfinite : t.isFinite with
  | true => exact isWord_of_ofWord? ((ofWord?_chars_iff t).2 hfinite)
  | false =>
    cases t with
    | number x => exact (ofWord?_chars_of_not_isFinite hfinite).1
    | _ => cases hfinite

theorem read_chars_iff (t : Token) (position : Nat) :
    read t.chars position = .ok t ↔ t.isFinite = true := by
  rw [← ofWord?_chars_iff, read]
  cases ofWord? t.chars <;> simp

end Token

namespace ReversePolish

/-- A written sequence is cut into the texts of its tokens. -/
theorem words_text (tokens : List Token) :
    Text.words (text tokens).toList = tokens.map Token.chars := by
  rw [text, String.toList_ofList, chars]
  by_cases hnil : tokens = []
  · subst hnil
    rfl
  · refine Text.words_of_joined (Text.joined_intercalate (by simpa using hnil)) ?_
    intro w hw
    obtain ⟨t, -, rfl⟩ := List.mem_map.1 hw
    exact t.isWord_chars

/-- **A written sequence is read back**, word by word and at whatever positions its
words are read, exactly if none of its numbers is infinite or undefined. -/
theorem map_read_words_text_iff (tokens : List Token) :
    (∀ position, (Text.words (text tokens).toList).map (Token.read · position) =
        tokens.map .ok) ↔
      ∀ t ∈ tokens, t.isFinite = true := by
  simp only [words_text, List.map_map, List.map_inj_left, Function.comp_apply,
    Token.read_chars_iff]
  constructor
  · intro h
    exact h 0
  · intro h position
    exact h

-- tokens are equal only if zeros agree in sign
example : Token.number (-0.0) ≠ Token.number 0.0 := by decide

end ReversePolish
end DeskCalculator
