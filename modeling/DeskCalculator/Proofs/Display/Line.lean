import DeskCalculator.Display.Basic
import DeskCalculator.Proofs.Text.Words
import DeskCalculator.Proofs.Token.Reading

/-!
# Lines of words

The text on a display spells a line of words: numbers with signs in front,
operators and parentheses.  Here the reactions to keys are defined once more, on
lines instead of characters (`Line.type?`), together with the lines that keys can
lead to (`WellFormed`).  `Proofs.Display.Refinement` shows that the rules for
characters do the same.
-/

namespace DeskCalculator

/-- A word on the display. -/
inductive Item where
  /-- So many minus signs, and digits and points, the last one first. -/
  | number (signs : Nat) (digits : List Char)
  /-- An operator. -/
  | operator (op : Operator)
  /-- An opening parenthesis. -/
  | leftParenthesis
  /-- A closing parenthesis. -/
  | rightParenthesis
  deriving DecidableEq

/-- The words on a display, the last one first. -/
abbrev Line := List Item

/-- The text of a word. -/
def Item.chars : Item → List Char
  | .number signs digits => List.replicate signs '-' ++ digits.reverse
  | .operator op => [op.symbol]
  | .leftParenthesis => ['(']
  | .rightParenthesis => [')']

/-- Is the character a digit or a point? -/
def isDigitOrPoint (c : Char) : Bool :=
  c.isDigit || c == '.'

theorem ne_of_isDigitOrPoint {c d : Char} (hc : isDigitOrPoint c = true)
    (hd : isDigitOrPoint d = false) : c ≠ d := by
  rintro rfl
  rw [hc] at hd
  cases hd

theorem Text.isBlank_eq_false_of_isDigitOrPoint {c : Char} (h : isDigitOrPoint c = true) :
    isBlank c = false := by
  rw [isDigitOrPoint, Bool.or_eq_true, beq_iff_eq] at h
  rcases h with h | rfl
  · exact isBlank_eq_false_of_isDigit h
  · decide

theorem Operator.ofSymbol?_of_isDigitOrPoint {c : Char} (h : isDigitOrPoint c = true) :
    ofSymbol? c = none := by
  rw [isDigitOrPoint, Bool.or_eq_true, beq_iff_eq] at h
  rcases h with h | rfl
  · exact ofSymbol?_eq_none_of_isDigit h
  · decide

namespace Line

/-! ## Text -/

/-- A text, backward, with one more character between single spaces. -/
def spaced (c : Char) (text : List Char) : List Char :=
  ' ' :: c :: (Keystroke.gap text ++ text)

/-- The text of a line, its last character first.  Operators and parentheses stand
between spaces. -/
def backward : Line → List Char
  | [] => []
  | .number signs digits :: earlier => digits ++ (List.replicate signs '-' ++ backward earlier)
  | .operator op :: earlier => spaced op.symbol (backward earlier)
  | .leftParenthesis :: earlier => spaced '(' (backward earlier)
  | .rightParenthesis :: earlier => spaced ')' (backward earlier)

/-- The words of a line, in reading order. -/
def words (line : Line) : List (List Char) :=
  line.reverse.map Item.chars

@[simp] theorem words_cons (item : Item) (earlier : Line) :
    words (item :: earlier) = words earlier ++ [item.chars] := by
  simp [words]

/-! ## What may follow -/

/-- The number of opening parentheses. -/
def opened (line : Line) : Nat :=
  line.count .leftParenthesis

/-- The number of closing parentheses. -/
def closed (line : Line) : Nat :=
  line.count .rightParenthesis

theorem opened_leftParenthesis (line : Line) :
    opened (.leftParenthesis :: line) = opened line + 1 := List.count_cons_self

theorem closed_rightParenthesis (line : Line) :
    closed (.rightParenthesis :: line) = closed line + 1 := List.count_cons_self

/-- Does the line end with a complete operand? -/
def isComplete : Line → Bool
  | .number _ (_ :: _) :: _ | .rightParenthesis :: _ | .operator .factorial :: _ => true
  | _ => false

/-- May a number with so many signs follow?  Signs stand at the start and after an
opening parenthesis only. -/
def admitsNumber (signs : Nat) : Line → Bool
  | [] | .leftParenthesis :: _ => true
  | .operator (.binary _) :: _ | .rightParenthesis :: _ => signs == 0
  | _ => false

/-- May an opening parenthesis follow?  It may also follow a number of which only
the last character, or none, is not a sign. -/
def admitsGroup : Line → Bool
  | [] | .operator (.binary _) :: _ => true
  | .number signs digits :: _ => digits.length ≤ 1 && 2 ≤ signs + digits.length
  | _ => false

/-- The lines that keys lead to. -/
inductive WellFormed : Line → Prop where
  /-- The empty line. -/
  | nil : WellFormed []
  /-- A number, which has a sign or a digit or point. -/
  | number {signs : Nat} {digits : List Char} {earlier : Line} : WellFormed earlier →
      admitsNumber signs earlier = true → (∀ c ∈ digits, isDigitOrPoint c = true) →
      0 < signs + digits.length → WellFormed (.number signs digits :: earlier)
  /-- An operator after a complete operand. -/
  | operator {op : Operator} {earlier : Line} : WellFormed earlier →
      isComplete earlier = true → WellFormed (.operator op :: earlier)
  /-- An opening parenthesis. -/
  | leftParenthesis {earlier : Line} : WellFormed earlier → admitsGroup earlier = true →
      WellFormed (.leftParenthesis :: earlier)
  /-- A closing parenthesis after a complete operand in an open group. -/
  | rightParenthesis {earlier : Line} : WellFormed earlier → isComplete earlier = true →
      closed earlier < opened earlier → WellFormed (.rightParenthesis :: earlier)

/-! ## Keys -/

/-- The line after an operator key, if it is accepted. -/
def typeOperator (line : Line) (op : Operator) : Option Line :=
  match line with
  | .operator (.binary _) :: earlier => some (.operator op :: earlier)
  | .number signs [] :: earlier =>
    if op = .binary .subtract then some (.number (signs + 1) [] :: earlier) else none
  | [] | .leftParenthesis :: _ =>
    if op = .binary .subtract then some (.number 1 [] :: line) else none
  | _ => some (.operator op :: line)

/-- The line after `(`, if it is accepted. -/
def typeOpen (line : Line) : Option Line :=
  if admitsGroup line then some (.leftParenthesis :: line) else none

/-- The line after `)`, if it is accepted. -/
def typeClose (line : Line) : Option Line :=
  if isComplete line && closed line < opened line then some (.rightParenthesis :: line) else none

/-- The line after a digit or point, if it is accepted. -/
def typeDigit (line : Line) (digit : Char) : Option Line :=
  match line with
  | .operator .factorial :: _ => none
  | .number signs digits :: earlier => some (.number signs (digit :: digits) :: earlier)
  | _ => some (.number 0 [digit] :: line)

/-- The line after a key, if the key is accepted. -/
def type? (line : Line) (key : Char) : Option Line :=
  match Operator.ofSymbol? key with
  | some op => typeOperator line op
  | none =>
    if key = ')' then typeClose line
    else if key = '(' then typeOpen line
    else if isDigitOrPoint key then typeDigit line key
    else none

/-- The line after a key. -/
def press (line : Line) (key : Char) : Line :=
  (type? line key).getD line

/-- The line after keys. -/
def typeKeys (line : Line) (keys : List Char) : Line :=
  keys.foldl press line

/-! ## Single keys -/

theorem type?_symbol (line : Line) (op : Operator) :
    type? line op.symbol = typeOperator line op := by
  rw [type?, Operator.ofSymbol?_symbol]

theorem type?_digit (line : Line) {digit : Char} (h : isDigitOrPoint digit = true) :
    type? line digit = typeDigit line digit := by
  have hsymbol : Operator.ofSymbol? digit = none := Operator.ofSymbol?_of_isDigitOrPoint h
  have hclose : digit ≠ ')' := ne_of_isDigitOrPoint h (by decide)
  have hopen : digit ≠ '(' := ne_of_isDigitOrPoint h (by decide)
  simp only [type?, hsymbol, if_neg hclose, if_neg hopen, if_pos h]

/-- Behind a complete operand every operator is put. -/
theorem typeOperator_of_isComplete {line : Line} (h : isComplete line = true) (op : Operator) :
    typeOperator line op = some (.operator op :: line) := by
  match line with
  | .number _ (_ :: _) :: _ => rfl
  | .operator .factorial :: _ => rfl
  | .rightParenthesis :: _ => rfl

theorem typeKeys_append (line : Line) (first rest : List Char) :
    typeKeys line (first ++ rest) = typeKeys (typeKeys line first) rest :=
  List.foldl_append

/-! ## Keys lead to well-formed lines -/

theorem admitsNumber_of_ne_zero {signs : Nat} {line : Line} (hsigns : signs ≠ 0)
    (h : admitsNumber signs line = true) (other : Nat) : admitsNumber other line = true := by
  match line with
  | [] => rfl
  | .leftParenthesis :: _ => rfl
  | .operator (.binary _) :: _ => exact absurd (beq_iff_eq.1 h) hsigns
  | .rightParenthesis :: _ => exact absurd (beq_iff_eq.1 h) hsigns
  | .operator .factorial :: _ => cases h
  | .number _ _ :: _ => cases h

/-- A sign where a number is admitted. -/
theorem wellFormed_sign {line : Line} (h : WellFormed line)
    (hadmits : admitsNumber 1 line = true) : WellFormed (.number 1 [] :: line) :=
  .number h hadmits (by simp) (by simp)

theorem wellFormed_typeOperator {line next : Line} {op : Operator} (h : WellFormed line)
    (hnext : typeOperator line op = some next) : WellFormed next := by
  match line, h with
  | [], h =>
    simp only [typeOperator] at hnext
    split at hnext <;> cases hnext
    exact wellFormed_sign h rfl
  | .number signs [] :: earlier, .number hearlier hadmits hdigits hpos =>
    simp only [typeOperator] at hnext
    split at hnext <;> cases hnext
    have hsigns : signs ≠ 0 := Nat.pos_iff_ne_zero.1 hpos
    exact .number hearlier (admitsNumber_of_ne_zero hsigns hadmits _) hdigits (Nat.succ_pos _)
  | .number signs (d :: digits) :: earlier, h =>
    cases hnext
    exact .operator h rfl
  | .operator (.binary b) :: earlier, .operator hearlier hcomplete =>
    cases hnext
    exact .operator hearlier hcomplete
  | .operator .factorial :: earlier, h =>
    cases hnext
    exact .operator h rfl
  | .leftParenthesis :: earlier, h =>
    simp only [typeOperator] at hnext
    split at hnext <;> cases hnext
    exact wellFormed_sign h rfl
  | .rightParenthesis :: earlier, h =>
    cases hnext
    exact .operator h rfl

theorem wellFormed_typeDigit {line next : Line} {digit : Char} (h : WellFormed line)
    (hdigit : isDigitOrPoint digit = true) (hnext : typeDigit line digit = some next) :
    WellFormed next := by
  have hfirst : ∀ c ∈ [digit], isDigitOrPoint c = true := by
    intro c hc
    rwa [List.mem_singleton.1 hc]
  match line, h with
  | [], h =>
    cases hnext
    exact .number h rfl hfirst (by simp)
  | .number signs digits :: earlier, .number hearlier hadmits hdigits hpos =>
    cases hnext
    refine .number hearlier hadmits ?_ (Nat.succ_pos _)
    intro c hc
    rcases List.mem_cons.1 hc with rfl | hc
    · exact hdigit
    · exact hdigits c hc
  | .operator (.binary b) :: earlier, h =>
    cases hnext
    exact .number h rfl hfirst (by simp)
  | .operator .factorial :: earlier, h => cases hnext
  | .leftParenthesis :: earlier, h =>
    cases hnext
    exact .number h rfl hfirst (by simp)
  | .rightParenthesis :: earlier, h =>
    cases hnext
    exact .number h rfl hfirst (by simp)

theorem wellFormed_type? {line next : Line} {key : Char} (h : WellFormed line)
    (hnext : type? line key = some next) : WellFormed next := by
  unfold type? at hnext
  split at hnext
  · exact wellFormed_typeOperator h hnext
  split at hnext
  · unfold typeClose at hnext
    split at hnext <;> cases hnext
    rename_i hclose
    simp only [Bool.and_eq_true, decide_eq_true_eq] at hclose
    exact .rightParenthesis h hclose.1 hclose.2
  split at hnext
  · unfold typeOpen at hnext
    split at hnext <;> cases hnext
    rename_i hopen
    exact .leftParenthesis h hopen
  split at hnext
  · rename_i hdigit
    exact wellFormed_typeDigit h hdigit hnext
  · cases hnext

theorem wellFormed_press {line : Line} (h : WellFormed line) (key : Char) :
    WellFormed (press line key) := by
  unfold press
  cases hnext : type? line key with
  | none => exact h
  | some next => exact wellFormed_type? h hnext

/-- **Keys lead from well-formed lines to well-formed lines.** -/
theorem wellFormed_typeKeys {line : Line} (h : WellFormed line) (keys : List Char) :
    WellFormed (typeKeys line keys) := by
  induction keys generalizing line with
  | nil => exact h
  | cons key keys ih => exact ih (wellFormed_press h key)

end Line
end DeskCalculator
