import DeskCalculator.Proofs.Display.Line

/-!
# Numbers and operators of a line

Between two binary operators on a display there is a number, so a line never has
more binary operators than numbers, and it has fewer if it ends with a complete
operand (`binaries_le_numbers`).  It can have more numbers than one for each binary
operator and one besides only if a number stands right behind `)` or right before
`(`, without an operator in between (`numbers_le_binaries`).
-/

namespace DeskCalculator

/-! ## Words like numbers -/

/-- Is the word made up of signs, digits and points, and no single sign? -/
def IsNumberLike (word : List Char) : Prop :=
  (∀ c ∈ word, c = '-' ∨ isDigitOrPoint c = true) ∧ word ≠ ['-']

/-- A word like a number is a number, or else no token. -/
theorem Token.ofWord?_of_isNumberLike {word : List Char} (h : IsNumberLike word) :
    (∃ x, ofWord? word = some (.number x)) ∨
      ofWord? word = none ∧ Decimal.Literal.ofText? word = none := by
  obtain ⟨hchars, hsign⟩ := h
  unfold ofWord?
  cases hliteral : Decimal.Literal.ofText? word with
  | some l => exact Or.inl ⟨l.value, rfl⟩
  | none =>
    refine Or.inr ⟨?_, rfl⟩
    match word with
    | [] => rfl
    | [c] =>
      have hminus : c ≠ '-' := fun hc => hsign (by rw [hc])
      have hdigit : isDigitOrPoint c = true :=
        (hchars c (List.mem_singleton_self c)).resolve_left hminus
      have hopen : c ≠ '(' := ne_of_isDigitOrPoint hdigit (by decide)
      have hclose : c ≠ ')' := ne_of_isDigitOrPoint hdigit (by decide)
      show ofSymbol? c = none
      rw [ofSymbol?, if_neg hopen, if_neg hclose, Operator.ofSymbol?_of_isDigitOrPoint hdigit]
      rfl
    | _ :: _ :: _ => rfl

/-- Is the word a number? -/
def Item.isNumber : Item → Bool
  | .number _ _ => true
  | _ => false

/-- Is the word a binary operator? -/
def Item.isBinary : Item → Bool
  | .operator (.binary _) => true
  | _ => false

namespace Line

variable {line earlier : Line}

/-- Does the line end with a sign that no digit follows? -/
def endsInSign : Line → Bool
  | .number signs [] :: _ => signs == 1
  | _ => false

theorem eq_number_of_endsInSign (h : endsInSign line = true) :
    ∃ earlier, line = .number 1 [] :: earlier := by
  match line with
  | .number signs [] :: earlier =>
    obtain rfl : signs = 1 := beq_iff_eq.1 h
    exact ⟨earlier, rfl⟩
  | [] => cases h
  | .number _ (_ :: _) :: _ => cases h
  | .operator _ :: _ => cases h
  | .leftParenthesis :: _ => cases h
  | .rightParenthesis :: _ => cases h

theorem endsInSign_of_isComplete (h : isComplete line = true) : endsInSign line = false := by
  match line with
  | .number _ (_ :: _) :: _ => rfl
  | .operator .factorial :: _ => rfl
  | .rightParenthesis :: _ => rfl

theorem endsInSign_of_admitsNumber {signs : Nat} (h : admitsNumber signs line = true) :
    endsInSign line = false := by
  match line with
  | [] => rfl
  | .leftParenthesis :: _ => rfl
  | .rightParenthesis :: _ => rfl
  | .operator _ :: _ => rfl
  | .number _ _ :: _ => cases h

theorem endsInSign_of_admitsGroup (h : admitsGroup line = true) : endsInSign line = false := by
  match line with
  | [] => rfl
  | .operator _ :: _ => rfl
  | .number 1 [] :: _ => cases h
  | .number _ (_ :: _) :: _ => rfl
  | .number 0 [] :: _ => rfl
  | .number (_ + 2) [] :: _ => rfl

/-- The word of a number is like a number, unless it is a single sign. -/
theorem isNumberLike_chars {signs : Nat} {digits : List Char}
    (h : WellFormed (.number signs digits :: earlier))
    (hsign : endsInSign (.number signs digits :: earlier) = false) :
    IsNumberLike (Item.number signs digits).chars := by
  obtain _ | ⟨-, -, hdigits, -⟩ := h
  refine ⟨?_, ?_⟩
  · intro c hc
    rcases List.mem_append.1 hc with hc | hc
    · exact Or.inl (List.eq_of_mem_replicate hc)
    · exact Or.inr (hdigits c (List.mem_reverse.1 hc))
  · intro hchars
    have hlength : signs + digits.length = 1 := by
      simpa [Item.chars] using congrArg List.length hchars
    match digits, signs with
    | [], 1 => cases hsign
    | [d], 0 =>
      have hd : isDigitOrPoint d = true := hdigits d (List.mem_singleton_self d)
      exact ne_of_isDigitOrPoint hd (by decide) (List.cons.inj hchars).1
    | [], 0 => cases hlength
    | [], signs + 2 => cases hlength
    | [d], signs + 1 => simp at hlength
    | _ :: _ :: _, signs => simp at hlength; omega

/-! ## Counting -/

/-- The number of numbers of a line. -/
def numbers (line : Line) : Nat :=
  line.countP Item.isNumber

/-- The number of binary operators of a line. -/
def binaries (line : Line) : Nat :=
  line.countP Item.isBinary

theorem numbers_number (signs : Nat) (digits : List Char) (line : Line) :
    numbers (.number signs digits :: line) = numbers line + 1 := List.countP_cons_of_pos rfl

theorem binaries_binary (op : BinaryOperator) (line : Line) :
    binaries (.operator (.binary op) :: line) = binaries line + 1 := List.countP_cons_of_pos rfl

/-- **There are no more binary operators than numbers**, and fewer if the last operand
is complete. -/
theorem binaries_le_numbers (h : WellFormed line) :
    binaries line ≤ numbers line ∧ (isComplete line = true → binaries line < numbers line) := by
  induction h with
  | nil => exact ⟨Nat.le_refl _, fun hcomplete => by cases hcomplete⟩
  | @number signs digits earlier _ _ _ _ ih =>
    obtain ⟨hle, -⟩ := ih
    have hbinaries : binaries (.number signs digits :: earlier) = binaries earlier := rfl
    rw [numbers_number, hbinaries]
    exact ⟨Nat.le_succ_of_le hle, fun _ => Nat.lt_succ_of_le hle⟩
  | @operator op earlier _ hcomplete ih =>
    have hlt := ih.2 hcomplete
    have hnumbers : numbers (.operator op :: earlier) = numbers earlier := rfl
    rw [hnumbers]
    cases op with
    | binary b =>
      rw [binaries_binary]
      exact ⟨hlt, fun hcomplete => by cases hcomplete⟩
    | factorial =>
      have hbinaries : binaries (.operator .factorial :: earlier) = binaries earlier := rfl
      rw [hbinaries]
      exact ⟨Nat.le_of_lt hlt, fun _ => hlt⟩
  | leftParenthesis _ _ ih => exact ⟨ih.1, fun hcomplete => by cases hcomplete⟩
  | rightParenthesis _ hcomplete _ ih =>
    have hlt := ih.2 hcomplete
    exact ⟨Nat.le_of_lt hlt, fun _ => hlt⟩

/-- No more groups are closed than opened. -/
theorem closed_le_opened (h : WellFormed line) : closed line ≤ opened line := by
  induction h with
  | nil => exact Nat.le_refl _
  | number _ _ _ _ ih => exact ih
  | operator _ _ ih => exact ih
  | @leftParenthesis earlier _ _ ih =>
    have hclosed : closed (.leftParenthesis :: earlier) = closed earlier := rfl
    rw [opened_leftParenthesis, hclosed]
    exact Nat.le_succ_of_le ih
  | @rightParenthesis earlier _ _ hlt _ =>
    have hopened : opened (.rightParenthesis :: earlier) = opened earlier := rfl
    rw [closed_rightParenthesis, hopened]
    exact hlt

/-! ## Numbers beside parentheses -/

/-- The word stands right behind `)` or right before `(`. -/
inductive Adjacent (word : List Char) : List (List Char) → Prop where
  /-- Right behind a closing parenthesis. -/
  | afterClose (before after : List (List Char)) :
      Adjacent word (before ++ [')'] :: word :: after)
  /-- Right before an opening parenthesis. -/
  | beforeOpen (before after : List (List Char)) :
      Adjacent word (before ++ word :: ['('] :: after)

theorem Adjacent.append {word : List Char} {words : List (List Char)} (h : Adjacent word words)
    (later : List (List Char)) : Adjacent word (words ++ later) := by
  cases h with
  | afterClose before after =>
    rw [List.append_assoc]
    exact .afterClose before (after ++ later)
  | beforeOpen before after =>
    rw [List.append_assoc]
    exact .beforeOpen before (after ++ later)

theorem Adjacent.mem {word : List Char} {words : List (List Char)} (h : Adjacent word words) :
    word ∈ words := by
  cases h <;> simp

/-- Does the line end where an operand is due? -/
def awaitsOperand : Line → Bool
  | [] | .leftParenthesis :: _ | .operator (.binary _) :: _ => true
  | _ => false

/-- A number follows where an operand is due, or else `)`, without a sign. -/
theorem awaitsOperand_of_admitsNumber {signs : Nat} (h : admitsNumber signs line = true) :
    awaitsOperand line = true ∨ signs = 0 ∧ ∃ rest, line = .rightParenthesis :: rest := by
  match line with
  | [] => exact Or.inl rfl
  | .leftParenthesis :: _ => exact Or.inl rfl
  | .operator (.binary _) :: _ => exact Or.inl rfl
  | .rightParenthesis :: rest => exact Or.inr ⟨beq_iff_eq.1 h, rest, rfl⟩
  | .operator .factorial :: _ => cases h
  | .number _ _ :: _ => cases h

/-- A group opens where an operand is due, or else behind a number. -/
theorem awaitsOperand_of_admitsGroup (h : admitsGroup line = true) :
    awaitsOperand line = true ∨ ∃ signs digits rest, line = .number signs digits :: rest := by
  match line with
  | [] => exact Or.inl rfl
  | .operator (.binary _) :: _ => exact Or.inl rfl
  | .number signs digits :: rest => exact Or.inr ⟨signs, digits, rest, rfl⟩
  | .operator .factorial :: _ => cases h
  | .leftParenthesis :: _ => cases h
  | .rightParenthesis :: _ => cases h

/-- **Superfluous numbers stand beside parentheses.**  If no number does, there is at
most one more number than binary operators, and none more where an operand is due. -/
theorem numbers_le_binaries (h : WellFormed line) :
    (∃ word, IsNumberLike word ∧ Adjacent word (words line)) ∨
      numbers line ≤ binaries line + 1 ∧
        (awaitsOperand line = true → numbers line ≤ binaries line) := by
  -- a word beside a parenthesis stays there whatever is put behind it
  have hlater {earlier : Line} (item : Item)
      (h : ∃ word, IsNumberLike word ∧ Adjacent word (words earlier)) :
      ∃ word, IsNumberLike word ∧ Adjacent word (words (item :: earlier)) := by
    obtain ⟨word, hword, hadjacent⟩ := h
    refine ⟨word, hword, ?_⟩
    rw [words_cons]
    exact hadjacent.append _
  induction h with
  | nil => exact Or.inr ⟨Nat.zero_le _, fun _ => Nat.le_refl _⟩
  | @number signs digits earlier hearlier hadmits hdigits hpos ih =>
    rcases awaitsOperand_of_admitsNumber hadmits with hdue | ⟨rfl, rest, rfl⟩
    · rcases ih with hadjacent | ⟨_, hle⟩
      · exact Or.inl (hlater _ hadjacent)
      · have hbinaries : binaries (.number signs digits :: earlier) = binaries earlier := rfl
        rw [numbers_number, hbinaries]
        exact Or.inr ⟨Nat.succ_le_succ (hle hdue), fun hawaits => by cases hawaits⟩
    · have hsign : endsInSign (.number 0 digits :: .rightParenthesis :: rest) = false := by
        cases digits <;> rfl
      refine Or.inl ⟨_, isNumberLike_chars (.number hearlier hadmits hdigits hpos) hsign, ?_⟩
      rw [words_cons, words_cons, List.append_assoc]
      exact .afterClose (words rest) []
  | @operator op earlier _ _ ih =>
    rcases ih with hadjacent | ⟨hle, _⟩
    · exact Or.inl (hlater _ hadjacent)
    · have hnumbers : numbers (.operator op :: earlier) = numbers earlier := rfl
      rw [hnumbers]
      cases op with
      | binary b =>
        rw [binaries_binary]
        exact Or.inr ⟨Nat.le_succ_of_le hle, fun _ => hle⟩
      | factorial => exact Or.inr ⟨hle, fun hawaits => by cases hawaits⟩
  | @leftParenthesis earlier hearlier hadmits ih =>
    rcases awaitsOperand_of_admitsGroup hadmits with hdue | ⟨signs, digits, rest, rfl⟩
    · rcases ih with hadjacent | ⟨hle, hle'⟩
      · exact Or.inl (hlater _ hadjacent)
      · exact Or.inr ⟨hle, fun _ => hle' hdue⟩
    · have hsign := endsInSign_of_admitsGroup hadmits
      refine Or.inl ⟨_, isNumberLike_chars hearlier hsign, ?_⟩
      rw [words_cons, words_cons, List.append_assoc]
      exact .beforeOpen (words rest) []
  | rightParenthesis _ _ _ ih =>
    rcases ih with hadjacent | ⟨hle, _⟩
    · exact Or.inl (hlater _ hadjacent)
    · exact Or.inr ⟨hle, fun hawaits => by cases hawaits⟩

end Line
end DeskCalculator
