import DeskCalculator.Proofs.Display.Refinement

/-!
# Where a group can be opened

A `(` is accepted on an empty display, and where the last character but one is the symbol of
a binary operator.  In a typed text this is an operator in front of a space, or else it is a
sign: then the last character is another sign, or the only digit or point of the number
(`opensGroup_of_admitsGroup`).  So a `(` is accepted behind an operator, behind two signs,
and behind a number that has a sign and a single digit or point (`press_open_ne_iff`).
-/

namespace DeskCalculator
namespace Line

variable {line : Line} {text : List Char}

/-- How a text ends behind which a group can be opened. -/
inductive OpensGroup (text : List Char) : Prop where
  /-- The text is empty. -/
  | empty : text = [] → OpensGroup text
  /-- It ends with a binary operator, and the space behind it. -/
  | operator {b : BinaryOperator} : [b.symbol, ' '] <:+ text → OpensGroup text
  /-- It ends with two signs. -/
  | signs : ['-', '-'] <:+ text → OpensGroup text
  /-- It ends with a sign in front of a single digit or point. -/
  | digit {c : Char} : isDigitOrPoint c = true → ['-', c] <:+ text → OpensGroup text

/-- The last two characters of a text that is given backward. -/
theorem pair_suffix_reverse {before last : Char} :
    [before, last] <:+ text.reverse ↔ ∃ rest, text = last :: before :: rest := by
  rw [show [before, last] = [last, before].reverse from rfl, List.reverse_suffix]
  constructor
  · rintro ⟨rest, rfl⟩
    exact ⟨rest, rfl⟩
  · rintro ⟨rest, rfl⟩
    exact ⟨rest, rfl⟩

/-- Behind such a text a `(` is accepted. -/
theorem exists_typeOpen_of_opensGroup (h : OpensGroup text.reverse) :
    ∃ next, Keystroke.typeOpen text = some next := by
  have hbinary {last before : Char} {rest : List Char}
      (hbefore : Keystroke.isBinarySymbol before = true) :
      ∃ next, Keystroke.typeOpen (last :: before :: rest) = some next := by
    simp [Keystroke.typeOpen, hbefore]
  cases h with
  | empty hempty =>
    rw [List.reverse_eq_nil_iff.1 hempty]
    exact ⟨_, rfl⟩
  | @operator b hends =>
    obtain ⟨rest, rfl⟩ := pair_suffix_reverse.1 hends
    exact hbinary (isBinarySymbol_symbol b)
  | signs hends =>
    obtain ⟨rest, rfl⟩ := pair_suffix_reverse.1 hends
    exact hbinary (isBinarySymbol_symbol .subtract)
  | digit _ hends =>
    obtain ⟨rest, rfl⟩ := pair_suffix_reverse.1 hends
    exact hbinary (isBinarySymbol_symbol .subtract)

/-- Where a line admits a group, its text ends in one of these ways. -/
theorem opensGroup_of_admitsGroup (h : WellFormed line) (hadmits : admitsGroup line = true) :
    OpensGroup (backward line).reverse := by
  match line, h with
  | [], _ => exact .empty rfl
  | .operator (.binary b) :: earlier, _ => exact .operator (pair_suffix_reverse.2 ⟨_, rfl⟩)
  | .number 0 [] :: earlier, .number _ _ _ hpos => exact absurd hpos (by simp)
  | .number 0 [d] :: earlier, _ => cases hadmits
  | .number _ (d :: e :: digits) :: earlier, _ => simp [admitsGroup] at hadmits
  | .number 1 [] :: earlier, _ => cases hadmits
  | .number (signs + 2) [] :: earlier, _ =>
    refine .signs (pair_suffix_reverse.2 ⟨List.replicate signs '-' ++ backward earlier, ?_⟩)
    simp [backward, List.replicate_succ]
  | .number (signs + 1) [d] :: earlier, h =>
    refine .digit (isDigitOrPoint_of_mem h)
      (pair_suffix_reverse.2 ⟨List.replicate signs '-' ++ backward earlier, ?_⟩)
    simp [backward, List.replicate_succ]

/-- So it does exactly there. -/
theorem opensGroup_iff (h : WellFormed line) :
    OpensGroup (backward line).reverse ↔ admitsGroup line = true := by
  constructor
  · intro hopens
    obtain ⟨next, hnext⟩ := exists_typeOpen_of_opensGroup hopens
    by_cases hadmits : admitsGroup line = true
    · exact hadmits
    · rw [typeOpen_backward h, typeOpen, if_neg hadmits] at hnext
      cases hnext
  · exact opensGroup_of_admitsGroup h

theorem press_open (line : Line) :
    press line '(' = if admitsGroup line = true then .leftParenthesis :: line else line := by
  have htype : type? line '(' = typeOpen line := rfl
  rw [press, htype, typeOpen]
  split <;> rfl

/-- A text does not end like itself with a `(` behind it. -/
theorem backward_leftParenthesis_ne (line : Line) :
    backward (.leftParenthesis :: line) ≠ backward line := by
  intro h
  have hlength := congrArg List.length h
  simp [backward, spaced] at hlength
  omega

/-- **Exactly where a group can be opened**, after any keys on an empty display. -/
theorem press_open_ne_iff (keys : List Char) :
    (Display.typeKeys {} keys).press '(' ≠ Display.typeKeys {} keys ↔
      OpensGroup (Display.typeKeys {} keys).chars := by
  have hline : WellFormed (typeKeys [] keys) := wellFormed_typeKeys .nil keys
  have htyped : Display.typeKeys {} keys = { backward := backward (typeKeys [] keys) } :=
    typeKeys_backward .nil keys
  rw [chars_typeKeys, opensGroup_iff hline, htyped, press_backward hline, press_open]
  split
  · rename_i hadmits
    simp [hadmits, backward_leftParenthesis_ne]
  · rename_i hadmits
    simp [hadmits]

/-- Behind the digit of `-5` a group is opened. -/
theorem press_open_behind_signed_digit :
    (Display.typeKeys {} ['-', '5']).chars = "-5".toList ∧
      ((Display.typeKeys {} ['-', '5']).press '(').chars = "-5 ( ".toList := by
  decide

end Line
end DeskCalculator
