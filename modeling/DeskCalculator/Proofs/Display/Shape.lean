import DeskCalculator.Proofs.Display.Refinement
import DeskCalculator.Proofs.Display.Safety

/-!
# The shape of typed text

Keys alone, without erasing or computing, put only a few kinds of words on a display,
and only some of them side by side: an operator or `)` stands behind a complete
operand, a number behind `(`, and an operator or `)` behind `!` (`shaped_typeKeys`).

The text is that of a well-formed line.  Every word of it is the last one of a
shorter well-formed line (`exists_item`), so what stands in front of a word is seen
from the way in which that line was formed.
-/

namespace DeskCalculator
namespace Line

variable {line earlier : Line} {item : Item} {words' : List (List Char)} {i : Nat} {c : Char}

/-! ## Words at positions -/

/-- Signs, then digits and points, and not nothing at all. -/
def IsSigned (word : List Char) : Prop :=
  word ≠ [] ∧ ∃ signs digits, word = List.replicate signs '-' ++ digits ∧
    ∀ c ∈ digits, isDigitOrPoint c = true

/-- A sign may stand alone at the position: it is the first one, or right behind `(`. -/
def AdmitsSign (words : List (List Char)) (i : Nat) : Prop :=
  i = 0 ∨ ∃ j, i = j + 1 ∧ words[j]? = some ['(']

/-- The word at the position is like a number.  A single `-` is, where a sign may stand
alone. -/
def NumberAt (words : List (List Char)) (i : Nat) : Prop :=
  ∃ word, words[i]? = some word ∧ IsSigned word ∧ (word = ['-'] → AdmitsSign words i)

/-- The word at the position is the symbol of an operator.  A `-` is one where a sign may
not stand alone. -/
def OperatorAt (words : List (List Char)) (i : Nat) (op : Operator) : Prop :=
  words[i]? = some [op.symbol] ∧ (op = .binary .subtract → ¬ AdmitsSign words i)

/-- With the word at the position an operand is complete. -/
inductive OperandEndsAt (words : List (List Char)) (i : Nat) : Prop where
  /-- The word is `!`. -/
  | factorial : words[i]? = some ['!'] → OperandEndsAt words i
  /-- The word is `)`. -/
  | group : words[i]? = some [')'] → OperandEndsAt words i
  /-- The word is like a number and ends in a digit or point. -/
  | number {start : List Char} {last : Char} : NumberAt words i →
      words[i]? = some (start ++ [last]) → isDigitOrPoint last = true → OperandEndsAt words i

/-- The shape of typed text. -/
structure Shaped (text : List Char) : Prop where
  /-- No two spaces stand side by side. -/
  single_spaced : ¬ [' ', ' '] <:+: text
  /-- A beginning has at least as many `(` as `)`. -/
  opened_first : ∀ u, u <+: text → u.count ')' ≤ u.count '('
  /-- A word is an operator, a parenthesis or like a number. -/
  word : ∀ i < (Text.words text).length, (∃ op, OperatorAt (Text.words text) i op) ∨
    (Text.words text)[i]? = some ['('] ∨ (Text.words text)[i]? = some [')'] ∨
    NumberAt (Text.words text) i
  /-- Right before an operator an operand is complete. -/
  before_operator : ∀ i op, OperatorAt (Text.words text) i op →
    ∃ j, i = j + 1 ∧ OperandEndsAt (Text.words text) j
  /-- So it is right before `)`. -/
  before_close : ∀ i, (Text.words text)[i]? = some [')'] →
    ∃ j, i = j + 1 ∧ OperandEndsAt (Text.words text) j
  /-- The word right behind `(` is like a number. -/
  behind_open : ∀ i, (Text.words text)[i]? = some ['('] → i + 1 < (Text.words text).length →
    NumberAt (Text.words text) (i + 1)
  /-- The word right behind `!` is an operator or `)`. -/
  behind_factorial : ∀ i, (Text.words text)[i]? = some ['!'] →
    i + 1 < (Text.words text).length →
    (∃ op, OperatorAt (Text.words text) (i + 1) op) ∨ (Text.words text)[i + 1]? = some [')']

/-! ## Words and items -/

@[simp] theorem length_words (line : Line) : (words line).length = line.length := by
  simp [words]

theorem WellFormed.of_cons (h : WellFormed (item :: earlier)) : WellFormed earlier := by
  cases h <;> assumption

/-- A word of a line is the last one of a line. -/
theorem exists_item (h : WellFormed line) (hi : i < (words line).length) :
    ∃ item earlier, WellFormed (item :: earlier) ∧ earlier.length = i ∧
      words (item :: earlier) <+: words line := by
  induction line with
  | nil => simp at hi
  | cons item earlier ih =>
    by_cases hlt : i < (words earlier).length
    · obtain ⟨item', earlier', hline, hlength, hbegins⟩ := ih h.of_cons hlt
      refine ⟨item', earlier', hline, hlength, hbegins.trans ?_⟩
      rw [words_cons]
      exact List.prefix_append _ _
    · refine ⟨item, earlier, h, ?_, List.prefix_refl _⟩
      simp at hi hlt
      omega

/-- The last word of a line stands where the others end, whatever comes later. -/
theorem getElem?_length_of_begins (h : words (item :: earlier) <+: words') :
    words'[earlier.length]? = some item.chars := by
  obtain ⟨later, rfl⟩ := h
  rw [words_cons, List.append_assoc, ← length_words earlier, List.singleton_append,
    List.getElem?_append_right (Nat.le_refl _), Nat.sub_self, List.getElem?_cons_zero]

theorem begins_of_cons_begins (h : words (item :: earlier) <+: words') :
    words earlier <+: words' := by
  rw [words_cons] at h
  exact (List.prefix_append _ _).trans h

/-- What an item of a single character is. -/
theorem cases_of_chars (h : WellFormed (item :: earlier)) (hchars : item.chars = [c]) :
    (item = .number 1 [] ∧ c = '-') ∨ isDigitOrPoint c = true ∨
      (∃ op, item = .operator op ∧ c = op.symbol) ∨ (item = .leftParenthesis ∧ c = '(') ∨
      (item = .rightParenthesis ∧ c = ')') := by
  cases h with
  | @number signs digits _ _ _ hdigits _ =>
    match signs, digits with
    | 0, [] => cases hchars
    | 1, [] => exact .inl ⟨rfl, (List.cons.inj hchars).1.symm⟩
    | signs + 2, [] => simp [Item.chars, List.replicate_succ] at hchars
    | 0, [d] => exact .inr (.inl ((List.cons.inj hchars).1 ▸ hdigits d (by simp)))
    | signs + 1, [d] => simp [Item.chars, List.replicate_succ] at hchars
    | signs, d :: e :: digits =>
      have hlength := congrArg List.length hchars
      simp [Item.chars] at hlength
      omega
  | @operator op => exact .inr (.inr (.inl ⟨op, rfl, (List.cons.inj hchars).1.symm⟩))
  | leftParenthesis =>
    exact .inr (.inr (.inr (.inl ⟨rfl, (List.cons.inj hchars).1.symm⟩)))
  | rightParenthesis =>
    exact .inr (.inr (.inr (.inr ⟨rfl, (List.cons.inj hchars).1.symm⟩)))

theorem eq_leftParenthesis_of_chars (h : WellFormed (item :: earlier))
    (hchars : item.chars = ['(']) : item = .leftParenthesis := by
  rcases cases_of_chars h hchars with ⟨-, hc⟩ | hc | ⟨op, -, hc⟩ | ⟨hitem, -⟩ | ⟨-, hc⟩
  · cases hc
  · cases hc
  · exact absurd hc.symm (Operator.of_all op (by decide))
  · exact hitem
  · cases hc

theorem eq_rightParenthesis_of_chars (h : WellFormed (item :: earlier))
    (hchars : item.chars = [')']) : item = .rightParenthesis := by
  rcases cases_of_chars h hchars with ⟨-, hc⟩ | hc | ⟨op, -, hc⟩ | ⟨-, hc⟩ | ⟨hitem, -⟩
  · cases hc
  · cases hc
  · exact absurd hc.symm (Operator.of_all op (by decide))
  · cases hc
  · exact hitem

/-- The symbol of an operator is one, or else it is a sign alone. -/
theorem eq_operator_of_chars {op : Operator} (h : WellFormed (item :: earlier))
    (hchars : item.chars = [op.symbol]) :
    item = .operator op ∨ item = .number 1 [] ∧ op = .binary .subtract := by
  have hdigit : isDigitOrPoint op.symbol = false := Operator.of_all op (by decide)
  have hopen : op.symbol ≠ '(' := Operator.of_all op (by decide)
  have hclose : op.symbol ≠ ')' := Operator.of_all op (by decide)
  rcases cases_of_chars h hchars with
    ⟨hitem, hc⟩ | hc | ⟨other, rfl, hc⟩ | ⟨-, hc⟩ | ⟨-, hc⟩
  · exact .inr ⟨hitem, symbol_eq_minus_iff.1 hc⟩
  · rw [hdigit] at hc
    cases hc
  · have hread := Operator.ofSymbol?_symbol op
    rw [hc, Operator.ofSymbol?_symbol other, Option.some.injEq] at hread
    exact .inl (by rw [hread])
  · exact absurd hc hopen
  · exact absurd hc hclose

/-! ## What stands at the end of a line -/

/-- Behind a line a sign may stand alone if the line is empty or ends with `(`. -/
theorem admitsSign_iff (h : WellFormed earlier) (hbegins : words earlier <+: words') :
    AdmitsSign words' earlier.length ↔
      earlier = [] ∨ ∃ rest, earlier = .leftParenthesis :: rest := by
  cases earlier with
  | nil => simp [AdmitsSign]
  | cons item rest =>
    have hitem := getElem?_length_of_begins hbegins
    constructor
    · rintro (hzero | ⟨j, hj, hword⟩)
      · simp at hzero
      · obtain rfl : rest.length = j := by simpa using hj
        rw [hitem, Option.some.injEq] at hword
        exact .inr ⟨rest, by rw [eq_leftParenthesis_of_chars h hword]⟩
    · rintro (hnil | ⟨rest', hrest⟩)
      · cases hnil
      · cases hrest
        exact .inr ⟨rest.length, rfl, hitem⟩

theorem isSigned_chars {signs : Nat} {digits : List Char}
    (h : WellFormed (.number signs digits :: earlier)) :
    IsSigned (Item.number signs digits).chars := by
  refine ⟨(isWord_chars h).1, signs, digits.reverse, rfl, ?_⟩
  cases h with
  | number _ _ hdigits _ =>
    intro c hc
    exact hdigits c (List.mem_reverse.1 hc)

/-- A number without a sign is no sign alone. -/
theorem chars_ne_sign {digits : List Char} (h : ∀ c ∈ digits, isDigitOrPoint c = true) :
    (Item.number 0 digits).chars ≠ ['-'] := by
  intro hsign
  obtain rfl : digits = ['-'] := by simpa [Item.chars] using hsign
  exact absurd (h '-' (List.mem_singleton_self _)) (by decide)

theorem numberAt_length {signs : Nat} {digits : List Char}
    (h : WellFormed (.number signs digits :: earlier))
    (hbegins : words (.number signs digits :: earlier) <+: words') :
    NumberAt words' earlier.length := by
  refine ⟨_, getElem?_length_of_begins hbegins, isSigned_chars h, ?_⟩
  intro hsign
  obtain _ | ⟨hearlier, hadmits, hdigits, -⟩ := h
  rw [admitsSign_iff hearlier (begins_of_cons_begins hbegins)]
  match earlier with
  | [] => exact .inl rfl
  | .leftParenthesis :: rest => exact .inr ⟨rest, rfl⟩
  -- elsewhere a number has no sign
  | .operator (.binary _) :: _ | .rightParenthesis :: _ =>
    obtain rfl : signs = 0 := beq_iff_eq.1 hadmits
    exact absurd hsign (chars_ne_sign hdigits)
  | .operator .factorial :: _ => cases hadmits
  | .number _ _ :: _ => cases hadmits

/-- Behind a complete operand a sign may not stand alone. -/
theorem operatorAt_length {op : Operator} (h : WellFormed (.operator op :: earlier))
    (hbegins : words (.operator op :: earlier) <+: words') :
    OperatorAt words' earlier.length op := by
  refine ⟨getElem?_length_of_begins hbegins, ?_⟩
  intro _
  cases h with
  | operator hearlier hcomplete =>
    rw [admitsSign_iff hearlier (begins_of_cons_begins hbegins)]
    rintro (rfl | ⟨rest, rfl⟩) <;> cases hcomplete

/-- A complete operand is complete with the last word of the line. -/
theorem operandEndsAt_of_isComplete (h : WellFormed earlier) (hcomplete : isComplete earlier = true)
    (hbegins : words earlier <+: words') :
    ∃ j, earlier.length = j + 1 ∧ OperandEndsAt words' j := by
  match earlier, h with
  | .number signs (d :: digits) :: rest, h =>
    have hword := getElem?_length_of_begins hbegins
    rw [Item.chars, List.reverse_cons, ← List.append_assoc] at hword
    exact ⟨rest.length, rfl, .number (numberAt_length h hbegins) hword (isDigitOrPoint_of_mem h)⟩
  | .operator .factorial :: rest, _ =>
    exact ⟨rest.length, rfl, .factorial (getElem?_length_of_begins hbegins)⟩
  | .rightParenthesis :: rest, _ =>
    exact ⟨rest.length, rfl, .group (getElem?_length_of_begins hbegins)⟩

/-! ## Typed text -/

/-- The word at a position is that of an item. -/
theorem exists_item_of_getElem? (h : WellFormed line) {word : List Char}
    (hword : (words line)[i]? = some word) :
    ∃ item earlier, WellFormed (item :: earlier) ∧ earlier.length = i ∧
      words (item :: earlier) <+: words line ∧ item.chars = word := by
  obtain ⟨hlt, -⟩ := List.getElem?_eq_some_iff.1 hword
  obtain ⟨item, earlier, hline, rfl, hbegins⟩ := exists_item h hlt
  rw [getElem?_length_of_begins hbegins, Option.some.injEq] at hword
  exact ⟨item, earlier, hline, rfl, hbegins, hword⟩

/-- The word behind another is that of an item behind another. -/
theorem exists_next_item (h : WellFormed line) {word : List Char}
    (hword : (words line)[i]? = some word) (hi : i + 1 < (words line).length) :
    ∃ item before rest, WellFormed (item :: before :: rest) ∧ (before :: rest).length = i + 1 ∧
      words (item :: before :: rest) <+: words line ∧ before.chars = word := by
  obtain ⟨item, earlier, hline, hlength, hbegins⟩ := exists_item h hi
  obtain ⟨before, rest, rfl⟩ := List.exists_cons_of_length_eq_add_one hlength
  obtain rfl : rest.length = i := by simpa using hlength
  rw [getElem?_length_of_begins (begins_of_cons_begins hbegins), Option.some.injEq] at hword
  exact ⟨item, before, rest, hline, rfl, hbegins, hword⟩

/-- **Whatever is typed has the shape of typed text.** -/
theorem shaped_typeKeys (keys : List Char) : Shaped (Display.typeKeys {} keys).chars := by
  have htidy : Display.Tidy (Display.typeKeys {} keys).chars :=
    Display.tidy_typeKeys Display.tidy_empty keys
  have hline : WellFormed (typeKeys [] keys) := wellFormed_typeKeys .nil keys
  have hwords : Text.words (Display.typeKeys {} keys).chars = words (typeKeys [] keys) := by
    rw [chars_typeKeys, words_backward hline]
  generalize typeKeys [] keys = line at hline hwords
  refine ⟨htidy.single_spaced, htidy.opened_first, ?word, ?operator, ?close, ?opening, ?factorial⟩
  all_goals rw [hwords]
  case word =>
    intro i hi
    obtain ⟨item, earlier, hitem, rfl, hbegins⟩ := exists_item hline hi
    have hword := getElem?_length_of_begins hbegins
    cases item with
    | number signs digits => exact .inr (.inr (.inr (numberAt_length hitem hbegins)))
    | operator op => exact .inl ⟨op, operatorAt_length hitem hbegins⟩
    | leftParenthesis => exact .inr (.inl hword)
    | rightParenthesis => exact .inr (.inr (.inl hword))
  case operator =>
    rintro i op ⟨hword, hsign⟩
    obtain ⟨item, earlier, hitem, rfl, hbegins, hchars⟩ := exists_item_of_getElem? hline hword
    rcases eq_operator_of_chars hitem hchars with rfl | ⟨rfl, rfl⟩
    · cases hitem with
      | operator hearlier hcomplete =>
        exact operandEndsAt_of_isComplete hearlier hcomplete (begins_of_cons_begins hbegins)
    · obtain ⟨word, hnumber, -, hadmits⟩ := numberAt_length hitem hbegins
      rw [hword, Option.some.injEq] at hnumber
      exact absurd (hadmits hnumber.symm) (hsign rfl)
  case close =>
    intro i hword
    obtain ⟨item, earlier, hitem, rfl, hbegins, hchars⟩ := exists_item_of_getElem? hline hword
    obtain rfl := eq_rightParenthesis_of_chars hitem hchars
    cases hitem with
    | rightParenthesis hearlier hcomplete _ =>
      exact operandEndsAt_of_isComplete hearlier hcomplete (begins_of_cons_begins hbegins)
  case opening =>
    intro i hword hi
    obtain ⟨item, before, rest, hitem, hlength, hbegins, hchars⟩ := exists_next_item hline hword hi
    obtain rfl := eq_leftParenthesis_of_chars hitem.of_cons hchars
    rw [← hlength]
    -- of the items only a number is admitted behind `(`
    match item, hitem with
    | .number signs digits, hitem => exact numberAt_length hitem hbegins
    | .operator _, .operator _ hcomplete => cases hcomplete
    | .leftParenthesis, .leftParenthesis _ hadmits => cases hadmits
    | .rightParenthesis, .rightParenthesis _ hcomplete _ => cases hcomplete
  case factorial =>
    intro i hword hi
    obtain ⟨item, before, rest, hitem, hlength, hbegins, hchars⟩ := exists_next_item hline hword hi
    have hsymbol : before.chars = [Operator.factorial.symbol] := hchars
    obtain rfl : before = .operator .factorial := by
      rcases eq_operator_of_chars hitem.of_cons hsymbol with hbefore | ⟨-, hop⟩
      · exact hbefore
      · cases hop
    rw [← hlength]
    match item, hitem with
    | .number _ _, .number _ hadmits _ _ => cases hadmits
    | .operator op, hitem => exact .inl ⟨op, operatorAt_length hitem hbegins⟩
    | .leftParenthesis, .leftParenthesis _ hadmits => cases hadmits
    | .rightParenthesis, _ => exact .inr (getElem?_length_of_begins hbegins)

end Line
end DeskCalculator
