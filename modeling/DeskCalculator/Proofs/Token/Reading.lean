import DeskCalculator.Token
import DeskCalculator.Proofs.Text.Words

/-!
# Words that stand for tokens

Whatever is read as a token is a word: it is not empty and has no blank in it
(`isWord_of_ofWord?`).  A literal has few kinds of characters, which is followed
along its sign, digits, fraction and exponent (`isLiteralChar_of_ofText?`); all other
tokens are single symbols (`eq_singleton_of_mem`).
-/

namespace DeskCalculator

open Float.Model.UnpackedFloat (Sign)

/-! ## Digits -/

theorem Text.isBlank_eq_false_of_isDigit {c : Char} (h : c.isDigit = true) :
    isBlank c = false := by
  obtain ⟨hlow, hhigh⟩ := Char.isDigit_iff_toNat.1 h
  have hlow : 48 ≤ c.toNat := hlow
  have hhigh : c.toNat ≤ 57 := hhigh
  simp only [isBlank, blankRanges, List.any_cons, List.any_nil, Bool.or_false, Bool.or_eq_false_iff,
    Bool.and_eq_false_iff, decide_eq_false_iff_not]
  omega

/-- What holds of each operator in the list of all holds of every operator. -/
@[elab_as_elim]
theorem Operator.of_all {motive : Operator → Prop} (op : Operator)
    (h : ∀ other ∈ all, motive other) : motive op :=
  h op (mem_all op)

/-- The symbols of the operators are no digits. -/
theorem Operator.ofSymbol?_eq_none_of_isDigit {c : Char} (h : c.isDigit = true) :
    ofSymbol? c = none := by
  cases hop : ofSymbol? c with
  | none => rfl
  | some op =>
    have hsymbol : op.symbol.isDigit = false := of_all op (by decide)
    rw [← symbol_of_ofSymbol? hop, hsymbol] at h
    cases h

namespace Decimal
namespace Literal

/-! ## Literals -/

theorem eq_or_cons_of_takeSign {text rest : List Char} {sign : Sign}
    (h : takeSign text = (sign, rest)) :
    text = rest ∨ text = '-' :: rest ∨ text = '+' :: rest := by
  unfold takeSign at h
  split at h
  · cases h
    exact Or.inr (Or.inl rfl)
  · cases h
    exact Or.inr (Or.inr rfl)
  · cases h
    exact Or.inl rfl

/-- The characters of literals: digits, signs, the point and the marks of an exponent. -/
def isLiteralChar (c : Char) : Bool :=
  c.isDigit || ['+', '-', '.', 'e', 'E'].contains c

theorem isLiteralChar_of_isDigit {c : Char} (h : c.isDigit = true) : isLiteralChar c = true := by
  rw [isLiteralChar, h, Bool.true_or]

theorem isBlank_eq_false_of_isLiteralChar {c : Char} (h : isLiteralChar c = true) :
    Text.isBlank c = false := by
  rw [isLiteralChar, Bool.or_eq_true] at h
  rcases h with h | h
  · exact Text.isBlank_eq_false_of_isDigit h
  · simp only [List.contains_eq_mem, List.mem_cons, List.not_mem_nil, or_false,
      decide_eq_true_eq] at h
    rcases h with rfl | rfl | rfl | rfl | rfl <;> decide

theorem isLiteralChar_of_takeSign {text rest : List Char} {sign : Sign}
    (h : takeSign text = (sign, rest)) (hrest : ∀ c ∈ rest, isLiteralChar c = true) :
    ∀ c ∈ text, isLiteralChar c = true := by
  intro c hc
  rcases eq_or_cons_of_takeSign h with rfl | rfl | rfl
  · exact hrest c hc
  · rcases List.mem_cons.1 hc with rfl | hc
    · rfl
    · exact hrest c hc
  · rcases List.mem_cons.1 hc with rfl | hc
    · rfl
    · exact hrest c hc

theorem isLiteralChar_of_exponent? {text : List Char} (h : (exponent? text).isSome = true) :
    ∀ c ∈ text, isLiteralChar c = true := by
  intro c hc
  cases text with
  | nil => simp at hc
  | cons mark rest =>
    obtain ⟨sign, digits, hsign⟩ : ∃ sign digits, takeSign rest = (sign, digits) := ⟨_, _, rfl⟩
    simp only [exponent?, hsign] at h
    split at h
    · rename_i hmark
      simp only [Bool.and_eq_true, Bool.or_eq_true, beq_iff_eq, List.all_eq_true] at hmark
      obtain ⟨⟨hmark, _⟩, hdigits⟩ := hmark
      rcases List.mem_cons.1 hc with rfl | hc
      · rcases hmark with rfl | rfl <;> rfl
      · exact isLiteralChar_of_takeSign hsign
          (fun d hd => isLiteralChar_of_isDigit (hdigits d hd)) c hc
    · simp at h

/-- In front of letters of a literal stand only digits. -/
theorem isLiteralChar_of_takeWhile {text : List Char}
    (h : ∀ c ∈ text.dropWhile Char.isDigit, isLiteralChar c = true) :
    ∀ c ∈ text, isLiteralChar c = true := by
  intro c hc
  rw [← List.takeWhile_append_dropWhile (p := Char.isDigit) (l := text)] at hc
  rcases List.mem_append.1 hc with hc | hc
  · exact isLiteralChar_of_isDigit (List.all_eq_true.1 List.all_takeWhile c hc)
  · exact h c hc

theorem isLiteralChar_of_takeFraction {text fraction rest : List Char}
    (h : takeFraction text = (fraction, rest)) (hrest : ∀ c ∈ rest, isLiteralChar c = true) :
    ∀ c ∈ text, isLiteralChar c = true := by
  intro c hc
  unfold takeFraction at h
  split at h
  · cases h
    rcases List.mem_cons.1 hc with rfl | hc
    · rfl
    · exact isLiteralChar_of_takeWhile hrest c hc
  · cases h
    exact hrest c hc

/-- A literal is not empty and has no other characters. -/
theorem isLiteralChar_of_ofText? {text : List Char} {l : Literal} (h : ofText? text = some l) :
    text ≠ [] ∧ ∀ c ∈ text, isLiteralChar c = true := by
  obtain ⟨sign, unsigned, hsign⟩ : ∃ sign unsigned, takeSign text = (sign, unsigned) :=
    ⟨_, _, rfl⟩
  obtain ⟨fraction, rest, hfraction⟩ : ∃ fraction rest,
      takeFraction (unsigned.dropWhile Char.isDigit) = (fraction, rest) := ⟨_, _, rfl⟩
  simp only [ofText?, hsign, hfraction] at h
  split at h
  · cases h
  rename_i hdigits
  obtain ⟨e, hexponent, _⟩ := Option.map_eq_some_iff.1 h
  have hrest : ∀ c ∈ rest, isLiteralChar c = true :=
    isLiteralChar_of_exponent? (by rw [hexponent]; rfl)
  refine ⟨?_, isLiteralChar_of_takeSign hsign ?_⟩
  · rintro rfl
    cases hsign
    cases hfraction
    exact hdigits rfl
  · exact isLiteralChar_of_takeWhile (isLiteralChar_of_takeFraction hfraction hrest)

/-- A literal is a word. -/
theorem isWord_of_ofText? {text : List Char} {l : Literal} (h : ofText? text = some l) :
    Text.IsWord text := by
  obtain ⟨hne, hchars⟩ := isLiteralChar_of_ofText? h
  exact ⟨hne, fun c hc => isBlank_eq_false_of_isLiteralChar (hchars c hc)⟩

end Literal
end Decimal

namespace Token

/-! ## Tokens -/

/-- A literal is read as its value. -/
theorem ofWord?_of_ofText? {word : List Char} {l : Decimal.Literal}
    (h : Decimal.Literal.ofText? word = some l) : ofWord? word = some (.number l.value) := by
  unfold ofWord?
  rw [h]

theorem not_blank_of_ofSymbol? {c : Char} {t : Token} (h : ofSymbol? c = some t) :
    Text.isBlank c = false := by
  unfold ofSymbol? at h
  split at h
  · subst c
    decide
  split at h
  · subst c
    decide
  obtain ⟨op, hop, _⟩ := Option.map_eq_some_iff.1 h
  rw [← Operator.symbol_of_ofSymbol? hop]
  exact Operator.of_all op (by decide)

/-- The symbol of an operator is read as the operator. -/
theorem ofWord?_symbol (op : Operator) : ofWord? [op.symbol] = some (.operator op) := by
  rcases op with ⟨b⟩ | _ <;> try cases b <;> rfl
  rfl

theorem ofWord?_leftParenthesis : ofWord? ['('] = some .leftParenthesis := rfl

theorem ofWord?_rightParenthesis : ofWord? [')'] = some .rightParenthesis := rfl

theorem eq_of_ofSymbol?_leftParenthesis {c : Char} (h : ofSymbol? c = some .leftParenthesis) :
    c = '(' := by
  unfold ofSymbol? at h
  split at h
  · assumption
  split at h
  · cases h
  · simp at h

theorem eq_of_ofSymbol?_rightParenthesis {c : Char} (h : ofSymbol? c = some .rightParenthesis) :
    c = ')' := by
  unfold ofSymbol? at h
  split at h
  · cases h
  split at h
  · assumption
  · simp at h

/-- What is read as no number is a single symbol. -/
theorem exists_ofSymbol?_of_ofWord? {word : List Char} {t : Token} (h : ofWord? word = some t)
    (hnumber : ∀ x, t ≠ .number x) : ∃ c, word = [c] ∧ ofSymbol? c = some t := by
  unfold ofWord? at h
  split at h
  · cases h
    exact absurd rfl (hnumber _)
  · split at h
    · exact ⟨_, rfl, h⟩
    · cases h

/-- Only the symbol `(` is read as the opening parenthesis. -/
theorem eq_of_ofWord?_leftParenthesis {word : List Char}
    (h : ofWord? word = some .leftParenthesis) : word = ['('] := by
  obtain ⟨c, rfl, hc⟩ := exists_ofSymbol?_of_ofWord? h (by simp)
  rw [eq_of_ofSymbol?_leftParenthesis hc]

/-- Only the symbol `)` is read as the closing parenthesis. -/
theorem eq_of_ofWord?_rightParenthesis {word : List Char}
    (h : ofWord? word = some .rightParenthesis) : word = [')'] := by
  obtain ⟨c, rfl, hc⟩ := exists_ofSymbol?_of_ofWord? h (by simp)
  rw [eq_of_ofSymbol?_rightParenthesis hc]

/-- Other tokens are not written as parentheses. -/
theorem ne_parenthesis_of_ofWord? {word : List Char} {t : Token} (h : ofWord? word = some t)
    (hopen : t ≠ .leftParenthesis) (hclose : t ≠ .rightParenthesis) :
    word ≠ ['('] ∧ word ≠ [')'] := by
  constructor
  · rintro rfl
    rw [ofWord?_leftParenthesis] at h
    exact hopen (Option.some.inj h).symm
  · rintro rfl
    rw [ofWord?_rightParenthesis] at h
    exact hclose (Option.some.inj h).symm

/-- **Whatever is read as a token is a word.** -/
theorem isWord_of_ofWord? {word : List Char} {t : Token} (h : ofWord? word = some t) :
    Text.IsWord word := by
  unfold ofWord? at h
  split at h
  · rename_i l hl
    exact Decimal.Literal.isWord_of_ofText? hl
  · split at h
    · rename_i c
      refine ⟨by simp, ?_⟩
      intro d hd
      rw [List.mem_singleton.1 hd]
      exact not_blank_of_ofSymbol? h
    · cases h

/-- A character that no literal has is a token by itself or part of none. -/
theorem eq_singleton_of_mem {word : List Char} {t : Token} {c : Char}
    (h : ofWord? word = some t) (hc : c ∈ word)
    (hliteral : Decimal.Literal.isLiteralChar c = false) : word = [c] := by
  unfold ofWord? at h
  split at h
  · rename_i l hl
    rw [(Decimal.Literal.isLiteralChar_of_ofText? hl).2 c hc] at hliteral
    cases hliteral
  · split at h
    · rw [List.mem_singleton.1 hc]
    · cases h

/-- So among tokens it occurs as often as it is a token. -/
theorem count_flatten {words : List (List Char)}
    (h : ∀ w ∈ words, ∃ t, ofWord? w = some t) {c : Char}
    (hliteral : Decimal.Literal.isLiteralChar c = false) :
    words.flatten.count c = words.count [c] := by
  induction words with
  | nil => rfl
  | cons word words ih =>
    obtain ⟨t, ht⟩ := h word (List.mem_cons_self ..)
    have hlater := ih fun w hw => h w (List.mem_cons_of_mem _ hw)
    rw [List.flatten_cons, List.count_append, hlater, List.count_cons]
    by_cases hc : c ∈ word
    · rw [eq_singleton_of_mem ht hc hliteral]
      simp [Nat.add_comm]
    · have hword : word ≠ [c] := by
        rintro rfl
        simp at hc
      simp [List.count_eq_zero.2 hc, hword]

end Token
end DeskCalculator
