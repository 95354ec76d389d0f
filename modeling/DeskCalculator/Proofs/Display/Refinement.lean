import DeskCalculator.Proofs.Display.Line

/-!
# The display works on lines

The rules for keys look at characters at the end of a text.  On the text of a
well-formed line they do what the rules for lines do (`type?_backward`), so every
text that keys lead to is the text of a well-formed line (`typeKeys_backward`),
and the words of the text are the words of the line (`words_backward`).
-/

namespace DeskCalculator
namespace Line

variable {line earlier : Line}

/-! ## The end of a text -/

theorem gap_append_of_ne {c : Char} (hc : c ≠ ' ') (text : List Char) :
    Keystroke.gap (c :: text) ++ c :: text = ' ' :: c :: text := by
  unfold Keystroke.gap
  split
  · rename_i h
    exact absurd (List.cons.inj h).1 hc
  · rfl

theorem isDigitOrPoint_of_mem {signs : Nat} {d : Char} {digits : List Char}
    (h : WellFormed (.number signs (d :: digits) :: earlier)) : isDigitOrPoint d = true := by
  cases h with
  | number _ _ hdigits _ => exact hdigits d (List.mem_cons_self ..)

/-- A complete operand, with a space behind it, ends in a character that is no
opening parenthesis, and the space. -/
theorem gap_append_backward (h : WellFormed line) (hcomplete : isComplete line = true) :
    ∃ c rest, Keystroke.gap (backward line) ++ backward line = ' ' :: c :: rest ∧ c ≠ '(' := by
  match line, h with
  | .number signs (d :: digits) :: earlier, h =>
    have hd : isDigitOrPoint d = true := isDigitOrPoint_of_mem h
    exact ⟨d, _, gap_append_of_ne (ne_of_isDigitOrPoint hd (by decide)) _,
      ne_of_isDigitOrPoint hd (by decide)⟩
  | .operator .factorial :: earlier, _ => exact ⟨'!', _, rfl, by decide⟩
  | .rightParenthesis :: earlier, _ => exact ⟨')', _, rfl, by decide⟩

/-! ## Operator keys on characters -/

theorem symbol_eq_minus_iff {op : Operator} : op.symbol = '-' ↔ op = .binary .subtract :=
  Operator.of_all op (by decide)

theorem typeOperator_letter {c : Char} (hspace : c ≠ ' ') (hminus : c ≠ '-')
    (text : List Char) (op : Char) :
    Keystroke.typeOperator (c :: text) op = some (' ' :: op :: ' ' :: c :: text) := by
  unfold Keystroke.typeOperator
  split
  · rename_i h
    cases h
  · rename_i h
    exact absurd (List.cons.inj h).1 hminus
  · rename_i h
    exact absurd (List.cons.inj h).1 hspace
  · rfl

theorem typeOperator_open (text : List Char) (op : Char) :
    Keystroke.typeOperator (' ' :: '(' :: text) op =
      if op = '-' then some ('-' :: ' ' :: '(' :: text) else none := by
  by_cases hop : op = '-'
  · simp [Keystroke.typeOperator, hop]
  · simp [Keystroke.typeOperator, hop]

/-- A closing parenthesis or `!` is a complete operand. -/
theorem typeOperator_complete {c d : Char} (hc : c = ')' ∨ c = '!') (text : List Char)
    (op : Char) :
    Keystroke.typeOperator (' ' :: c :: ' ' :: d :: text) op =
      some (' ' :: op :: ' ' :: c :: ' ' :: d :: text) := by
  rcases hc with rfl | rfl <;> simp [Keystroke.typeOperator]

/-- A binary operator is replaced. -/
theorem typeOperator_replace (b : BinaryOperator) {d : Char} (hd : d ≠ '(') (text : List Char)
    (op : Char) :
    Keystroke.typeOperator (' ' :: b.symbol :: ' ' :: d :: text) op =
      some (' ' :: op :: ' ' :: d :: text) := by
  cases b <;> simp [Keystroke.typeOperator, BinaryOperator.symbol, hd]

/-! ## Keys on characters and on words -/

theorem typeOperator_backward (h : WellFormed line) (op : Operator) :
    Keystroke.typeOperator (backward line) op.symbol = (typeOperator line op).map backward := by
  match line, h with
  | [], _ =>
    simp only [backward, typeOperator, Keystroke.typeOperator, symbol_eq_minus_iff]
    split <;> rfl
  | .number signs [] :: earlier, .number _ _ _ hpos =>
    obtain ⟨signs, rfl⟩ : ∃ n, signs = n + 1 := ⟨signs - 1, by simp at hpos; omega⟩
    simp only [backward, typeOperator, List.replicate_succ, List.nil_append, List.cons_append,
      Keystroke.typeOperator, symbol_eq_minus_iff]
    split <;> rfl
  | .number signs (d :: digits) :: earlier, h =>
    have hd : isDigitOrPoint d = true := isDigitOrPoint_of_mem h
    have hspace : d ≠ ' ' := ne_of_isDigitOrPoint hd (by decide)
    have hminus : d ≠ '-' := ne_of_isDigitOrPoint hd (by decide)
    simp only [backward, typeOperator, List.cons_append, typeOperator_letter hspace hminus,
      Option.map_some, spaced, gap_append_of_ne hspace]
  | .operator (.binary b) :: earlier, .operator hearlier hcomplete =>
    obtain ⟨c, rest, hgap, hc⟩ := gap_append_backward hearlier hcomplete
    simp only [backward, typeOperator, spaced, hgap, Option.map_some]
    exact typeOperator_replace b hc rest _
  | .operator .factorial :: earlier, .operator hearlier hcomplete =>
    obtain ⟨c, rest, hgap, -⟩ := gap_append_backward hearlier hcomplete
    simp only [backward, typeOperator, spaced, hgap, Option.map_some]
    exact typeOperator_complete (.inr rfl) rest _
  | .leftParenthesis :: earlier, _ =>
    simp only [backward, typeOperator, spaced, typeOperator_open, symbol_eq_minus_iff]
    split <;> rfl
  | .rightParenthesis :: earlier, .rightParenthesis hearlier hcomplete _ =>
    obtain ⟨c, rest, hgap, -⟩ := gap_append_backward hearlier hcomplete
    simp only [backward, typeOperator, spaced, hgap, Option.map_some]
    exact typeOperator_complete (.inl rfl) rest _

/-- Before a number the text is empty or ends in a space. -/
theorem backward_of_admitsNumber {signs : Nat} (h : admitsNumber signs earlier = true) :
    backward earlier = [] ∨ ∃ rest, backward earlier = ' ' :: rest := by
  match earlier with
  | [] => exact .inl rfl
  | .leftParenthesis :: _ => exact .inr ⟨_, rfl⟩
  | .operator _ :: _ => exact .inr ⟨_, rfl⟩
  | .rightParenthesis :: _ => exact .inr ⟨_, rfl⟩
  | .number _ _ :: _ => cases h

theorem isBinarySymbol_symbol (b : BinaryOperator) :
    Keystroke.isBinarySymbol b.symbol = true := by
  cases b <;> decide

theorem isBinarySymbol_of_isDigitOrPoint {c : Char} (h : isDigitOrPoint c = true) :
    Keystroke.isBinarySymbol c = false := by
  rw [Keystroke.isBinarySymbol, Operator.ofSymbol?_of_isDigitOrPoint h]

theorem typeOpen_backward (h : WellFormed line) :
    Keystroke.typeOpen (backward line) = (typeOpen line).map backward := by
  have hspace : Keystroke.isBinarySymbol ' ' = false := by decide
  have hminus : Keystroke.isBinarySymbol '-' = true := by decide
  match line, h with
  | [], _ => rfl
  | .number 0 [] :: earlier, .number _ _ _ hpos => exact absurd hpos (by simp)
  | .number 1 [] :: earlier, .number _ hadmits _ _ =>
    rcases backward_of_admitsNumber hadmits with hempty | ⟨rest, hrest⟩
    · simp [backward, typeOpen, admitsGroup, Keystroke.typeOpen, hempty]
    · simp [backward, typeOpen, admitsGroup, Keystroke.typeOpen, hrest, hspace]
  | .number (signs + 2) [] :: earlier, _ =>
    simp [backward, typeOpen, admitsGroup, Keystroke.typeOpen, List.replicate_succ, hminus, spaced]
  | .number 0 [d] :: earlier, .number _ hadmits _ _ =>
    rcases backward_of_admitsNumber hadmits with hempty | ⟨rest, hrest⟩
    · simp [backward, typeOpen, admitsGroup, Keystroke.typeOpen, hempty]
    · simp [backward, typeOpen, admitsGroup, Keystroke.typeOpen, hrest, hspace]
  | .number (signs + 1) [d] :: earlier, _ =>
    simp [backward, typeOpen, admitsGroup, Keystroke.typeOpen, List.replicate_succ, hminus, spaced]
  | .number signs (d :: e :: digits) :: earlier, .number _ _ hdigits _ =>
    have he : Keystroke.isBinarySymbol e = false :=
      isBinarySymbol_of_isDigitOrPoint (hdigits e (by simp))
    simp [backward, typeOpen, admitsGroup, Keystroke.typeOpen, he]
  | .operator op :: earlier, _ =>
    rcases op with ⟨b⟩ | _
    · simp [backward, typeOpen, admitsGroup, Keystroke.typeOpen, spaced, Operator.symbol,
        isBinarySymbol_symbol, Keystroke.gap]
    · rfl
  | .leftParenthesis :: earlier, _ => rfl
  | .rightParenthesis :: earlier, _ => rfl

/-- The last character but one of a text that ends with a number is a digit, a
point, a sign or the space before the number. -/
theorem getElem?_one_backward {signs : Nat} {digits : List Char}
    (h : WellFormed (.number signs digits :: earlier)) {c : Char}
    (hc : (backward (.number signs digits :: earlier))[1]? = some c) :
    isDigitOrPoint c = true ∨ c = '-' ∨ c = ' ' := by
  obtain _ | ⟨-, hadmits, hdigits, hpos⟩ := h
  -- a number of one character has the text before it as neighbour
  have hhead : ∀ d : Char, (d :: backward earlier)[1]? = some c → c = ' ' := by
    intro d hd
    rcases backward_of_admitsNumber hadmits with hearlier | ⟨rest, hearlier⟩
    · rw [hearlier] at hd
      cases hd
    · rw [hearlier] at hd
      cases hd
      rfl
  match digits, signs with
  | [], 0 => exact absurd hpos (by simp)
  | [], 1 => exact .inr (.inr (hhead '-' hc))
  | [], signs + 2 =>
    cases hc
    exact .inr (.inl rfl)
  | [d], 0 => exact .inr (.inr (hhead d hc))
  | [d], signs + 1 =>
    cases hc
    exact .inr (.inl rfl)
  | d :: e :: digits, signs =>
    cases hc
    exact .inl (hdigits c (by simp))

/-- So it is no other character. -/
theorem getElem?_one_backward_ne {signs : Nat} {digits : List Char}
    (h : WellFormed (.number signs digits :: earlier)) {c : Char}
    (hdigit : isDigitOrPoint c = false) (hminus : c ≠ '-') (hspace : c ≠ ' ') :
    (backward (.number signs digits :: earlier))[1]? ≠ some c := by
  intro hc
  rcases getElem?_one_backward h hc with hd | hd | hd
  · exact ne_of_isDigitOrPoint hd hdigit rfl
  · exact hminus hd
  · exact hspace hd

theorem typeDigit_of_ne {text : List Char} (h : text[1]? ≠ some '!') (digit : Char) :
    Keystroke.typeDigit text digit = some (digit :: text) := by
  unfold Keystroke.typeDigit
  split
  · exact absurd rfl h
  · rfl

theorem typeDigit_backward (h : WellFormed line) (digit : Char) :
    Keystroke.typeDigit (backward line) digit = (typeDigit line digit).map backward := by
  match line, h with
  | [], _ => rfl
  | .number signs digits :: earlier, h =>
    have hlast : (backward (.number signs digits :: earlier))[1]? ≠ some '!' :=
      getElem?_one_backward_ne h (by decide) (by decide) (by decide)
    exact typeDigit_of_ne hlast digit
  | .operator op :: earlier, _ =>
    rcases op with ⟨b⟩ | _
    · refine typeDigit_of_ne ?_ digit
      cases b <;> simp [backward, spaced, Operator.symbol, BinaryOperator.symbol]
    · rfl
  | .leftParenthesis :: earlier, _ => rfl
  | .rightParenthesis :: earlier, _ => rfl

/-! ## Counting parentheses -/

theorem count_spaced {p : Char} (hp : p ≠ ' ') (c : Char) (text : List Char) :
    (spaced c text).count p = text.count p + if c = p then 1 else 0 := by
  have hgap : (Keystroke.gap text).count p = 0 := by
    unfold Keystroke.gap
    split
    · rfl
    · rw [List.count_eq_zero, List.mem_singleton]
      exact hp
  simp [spaced, List.count_cons, hgap, Ne.symm hp]

theorem count_number {p : Char} (hp : isDigitOrPoint p = false) (hminus : p ≠ '-')
    {digits : List Char} (hdigits : ∀ c ∈ digits, isDigitOrPoint c = true) (signs : Nat)
    (text : List Char) :
    (digits ++ (List.replicate signs '-' ++ text)).count p = text.count p := by
  have hnone : digits.count p = 0 :=
    List.count_eq_zero.2 fun hmem => ne_of_isDigitOrPoint (hdigits p hmem) hp rfl
  simp [List.count_append, hnone, List.count_replicate, Ne.symm hminus]

/-- The parentheses of a text are those of the line. -/
theorem count_backward (h : WellFormed line) :
    (backward line).count '(' = opened line ∧ (backward line).count ')' = closed line := by
  induction h with
  | nil => exact ⟨rfl, rfl⟩
  | number _ _ hdigits _ ih =>
    rw [backward, count_number (by decide) (by decide) hdigits,
      count_number (by decide) (by decide) hdigits, ih.1, ih.2]
    simp [opened, closed]
  | @operator op _ _ _ ih =>
    have hopen : op.symbol ≠ '(' := Operator.of_all op (by decide)
    have hclose : op.symbol ≠ ')' := Operator.of_all op (by decide)
    rw [backward, count_spaced (by decide), count_spaced (by decide), ih.1, ih.2, if_neg hopen,
      if_neg hclose]
    simp [opened, closed]
  | leftParenthesis _ _ ih =>
    rw [backward, count_spaced (by decide), count_spaced (by decide), ih.1, ih.2]
    simp [opened, closed]
  | rightParenthesis _ _ _ ih =>
    rw [backward, count_spaced (by decide), count_spaced (by decide), ih.1, ih.2]
    simp [opened, closed]

/-! ## Closing a group -/

theorem typeClose_eq_none {text : List Char} (h : text.count '(' ≤ text.count ')') :
    Keystroke.typeClose text = none := by
  unfold Keystroke.typeClose
  split
  · rename_i last before rest
    simp [h]
  · rfl

/-- In an open group a `)` is accepted behind a complete operand. -/
theorem typeClose_eq_some {text : List Char} (h : text.count ')' < text.count '(')
    (hbefore : text[1]? ≠ some '(') (hlast : text.head? ≠ some '(' ∧ text.head? ≠ some '-')
    (hoperator : text.head? = some ' ' →
      ∀ c, text[1]? = some c → Keystroke.isBinarySymbol c = false) :
    Keystroke.typeClose text = some (spaced ')' text) := by
  match text with
  | [] => exact absurd h (by simp)
  | [c] =>
    have hc : c ≠ '(' := by simpa using hlast.1
    exact absurd h (by simp [hc])
  | last :: before :: rest =>
    have hcount : ¬ (last :: before :: rest).count '(' ≤ (last :: before :: rest).count ')' :=
      Nat.not_le.2 h
    have hbefore : (before == '(') = false := by simpa using hbefore
    have hminus : (last == '-') = false := by simpa using hlast.2
    have hwaits : (Keystroke.isBinarySymbol before && last == ' ') = false := by
      by_cases hspace : last = ' '
      · rw [hoperator (congrArg some hspace) before rfl]
        rfl
      · rw [beq_eq_false_iff_ne.2 hspace, Bool.and_false]
    rw [Keystroke.typeClose, hbefore, hminus, hwaits, decide_eq_false hcount]
    rfl

theorem typeClose_sign (text : List Char) : Keystroke.typeClose ('-' :: text) = none := by
  cases text <;> simp [Keystroke.typeClose]

theorem typeClose_binary (b : BinaryOperator) (text : List Char) :
    Keystroke.typeClose (' ' :: b.symbol :: text) = none := by
  simp [Keystroke.typeClose, isBinarySymbol_symbol]

theorem typeClose_open (text : List Char) :
    Keystroke.typeClose (' ' :: '(' :: text) = none := by
  simp [Keystroke.typeClose]

theorem typeClose_backward (h : WellFormed line) :
    Keystroke.typeClose (backward line) = (typeClose line).map backward := by
  obtain ⟨hopen, hclose⟩ := count_backward h
  by_cases hcount : closed line < opened line
  · have hlt : (backward line).count ')' < (backward line).count '(' := by rwa [hopen, hclose]
    have htype : typeClose line =
        if isComplete line = true then some (.rightParenthesis :: line) else none := by
      simp [typeClose, hcount]
    rw [htype]
    match line, h with
    | [], _ => rfl
    | .number (signs + 1) [] :: earlier, _ => exact typeClose_sign _
    | .number 0 [] :: earlier, .number _ _ _ hpos => exact absurd hpos (by simp)
    | .number signs (d :: digits) :: earlier, h =>
      have hd : isDigitOrPoint d = true := isDigitOrPoint_of_mem h
      have hne {c : Char} (hc : isDigitOrPoint c = false) :
          (backward (.number signs (d :: digits) :: earlier)).head? ≠ some c := fun hhead =>
        ne_of_isDigitOrPoint hd hc (Option.some.inj hhead)
      exact typeClose_eq_some hlt
        (getElem?_one_backward_ne h (by decide) (by decide) (by decide))
        ⟨hne (by decide), hne (by decide)⟩ fun hhead => absurd hhead (hne (by decide))
    | .operator (.binary b) :: earlier, _ => exact typeClose_binary b _
    | .operator .factorial :: earlier, _ =>
      refine typeClose_eq_some hlt (by simp [backward, spaced, Operator.symbol])
        (by simp [backward, spaced]) ?_
      intro _ c hc
      cases hc
      decide
    | .leftParenthesis :: earlier, _ => exact typeClose_open _
    | .rightParenthesis :: earlier, _ =>
      refine typeClose_eq_some hlt (by simp [backward, spaced])
        (by simp [backward, spaced]) ?_
      intro _ c hc
      cases hc
      decide
  · rw [typeClose_eq_none (by omega)]
    simp [typeClose, hcount]

/-! ## All keys -/

/-- **A key does to the text what it does to the line.** -/
theorem type?_backward (h : WellFormed line) (key : Char) :
    Keystroke.type? (backward line) key = (type? line key).map backward := by
  unfold Keystroke.type? type?
  cases hop : Operator.ofSymbol? key with
  | some op =>
    rw [← Operator.symbol_of_ofSymbol? hop]
    exact typeOperator_backward h op
  | none =>
    show (if key = ')' then _ else _) = _
    split
    · exact typeClose_backward h
    split
    · exact typeOpen_backward h
    show (if isDigitOrPoint key = true then _ else _) = _
    split
    · exact typeDigit_backward h key
    · rfl

/-- A typed text does not report a failure. -/
theorem backward_ne_error (h : WellFormed line) :
    ({ backward := backward line } : Display) ≠ .error := by
  have herror : (Display.error.backward).head? = some 'R' := by decide
  intro heq
  have hhead : (backward line).head? = some 'R' := by
    rw [← herror, ← heq]
  match line, h with
  | .number signs (d :: digits) :: earlier, h =>
    have hd : isDigitOrPoint d = true := isDigitOrPoint_of_mem h
    exact ne_of_isDigitOrPoint hd (by decide) (Option.some.inj hhead)
  | .number (signs + 1) [] :: earlier, _ => cases hhead
  | .number 0 [] :: earlier, .number _ _ _ hpos => exact absurd hpos (by simp)

theorem press_backward (h : WellFormed line) (key : Char) :
    Display.press { backward := backward line } key =
      { backward := backward (press line key) } := by
  unfold Display.press Display.fresh
  rw [if_neg (backward_ne_error h), type?_backward h, press]
  cases type? line key <;> rfl

/-- **Keys do to the text what they do to the line.** -/
theorem typeKeys_backward (h : WellFormed line) (keys : List Char) :
    Display.typeKeys { backward := backward line } keys =
      { backward := backward (typeKeys line keys) } := by
  induction keys generalizing line with
  | nil => rfl
  | cons key keys ih =>
    show Display.typeKeys (Display.press { backward := backward line } key) keys = _
    rw [press_backward h]
    exact ih (wellFormed_press h key)

/-- The text after keys on an empty display. -/
theorem chars_typeKeys (keys : List Char) :
    (Display.typeKeys {} keys).chars = (backward (typeKeys [] keys)).reverse :=
  congrArg Display.chars (typeKeys_backward .nil keys)

/-! ## Words -/

/-- The text of a word of a line is a word. -/
theorem isWord_chars {item : Item} (h : WellFormed (item :: earlier)) :
    Text.IsWord item.chars := by
  cases h with
  | @number signs digits _ _ _ hdigits hpos =>
    refine ⟨?_, ?_⟩
    · intro hnil
      obtain ⟨rfl, rfl⟩ : signs = 0 ∧ digits = [] := by simpa [Item.chars] using hnil
      exact absurd hpos (by simp)
    · intro c hc
      rcases List.mem_append.1 hc with hc | hc
      · rw [List.eq_of_mem_replicate hc]
        decide
      · have hd : isDigitOrPoint c = true := hdigits c (List.mem_reverse.1 hc)
        exact Text.isBlank_eq_false_of_isDigitOrPoint hd
  | @operator op => exact Token.isWord_of_ofWord? (Token.ofWord?_symbol op)
  | leftParenthesis => exact Token.isWord_of_ofWord? Token.ofWord?_leftParenthesis
  | rightParenthesis => exact Token.isWord_of_ofWord? Token.ofWord?_rightParenthesis

/-- A character between spaces is one more word. -/
theorem words_spaced {c : Char} (hc : Text.IsWord [c]) (text : List Char) :
    Text.words (spaced c text).reverse = Text.words text.reverse ++ [[c]] := by
  have hspace : Text.isBlank ' ' = true := by decide
  have hlast : Text.words [c, ' '] = [[c]] := by
    rw [show [c, ' '] = [c] ++ ' ' :: [] from rfl, Text.words_append_blank hspace,
      Text.words_of_isWord hc]
    rfl
  have hgap : ∃ before, (Keystroke.gap text ++ text).reverse = before ++ [' '] ∧
      Text.words before = Text.words text.reverse := by
    unfold Keystroke.gap
    split
    · rename_i rest
      refine ⟨rest.reverse, by simp, ?_⟩
      rw [List.reverse_cons, Text.words_append_singleton hspace]
    · exact ⟨text.reverse, by simp, rfl⟩
  obtain ⟨before, hreverse, hbefore⟩ := hgap
  calc Text.words (spaced c text).reverse
      = Text.words (before ++ ' ' :: [c, ' ']) := by simp [spaced, hreverse]
    _ = Text.words text.reverse ++ [[c]] := by
        rw [Text.words_append_blank hspace, hbefore, hlast]

/-- **The words of the text are those of the line.** -/
theorem words_backward (h : WellFormed line) :
    Text.words (backward line).reverse = words line := by
  induction h with
  | nil => rfl
  | @number signs digits earlier hearlier hadmits hdigits hpos ih =>
    have hword := isWord_chars (.number hearlier hadmits hdigits hpos)
    have hreverse : (backward (.number signs digits :: earlier)).reverse =
        (backward earlier).reverse ++ (Item.number signs digits).chars := by
      simp [backward, Item.chars]
    rw [hreverse, words_cons, ← ih]
    rcases backward_of_admitsNumber hadmits with hempty | ⟨rest, hrest⟩
    · rw [hempty]
      exact Text.words_of_isWord hword
    · have hspace : Text.isBlank ' ' = true := by decide
      have hsplit (word : List Char) :
          (' ' :: rest).reverse ++ word = rest.reverse ++ ' ' :: word := by
        simp
      have hbefore : Text.words (' ' :: rest).reverse = Text.words rest.reverse := by
        rw [List.reverse_cons, Text.words_append_singleton hspace]
      rw [hrest, hsplit, Text.words_append_blank hspace, Text.words_of_isWord hword, hbefore]
  | operator hearlier hcomplete ih =>
    rw [backward, words_spaced (isWord_chars (.operator hearlier hcomplete)), ih, words_cons]
    rfl
  | leftParenthesis hearlier hadmits ih =>
    rw [backward, words_spaced (isWord_chars (.leftParenthesis hearlier hadmits)), ih, words_cons]
    rfl
  | rightParenthesis hearlier hcomplete hcount ih =>
    rw [backward, words_spaced (isWord_chars (.rightParenthesis hearlier hcomplete hcount)), ih,
      words_cons]
    rfl

end Line
end DeskCalculator
