import DeskCalculator.Proofs.Display.Refinement

/-!
# Typing an expression

An expression can be typed if its numbers are plain decimals, a sign stands before
a number only at the start and after `(`, and a group opens only at the start and
after a binary operator (`Typable`).  Its keys are its characters; before a binary
operator any other binary operators may be typed, which it replaces (`Spells`), and
keys that are never accepted may stand anywhere (`isIgnored`).  Such keys leave the
words of the expression on the display (`words_typeKeys`).
-/

namespace DeskCalculator
namespace Typing

/-! ## Typable expressions -/

/-- Where a phrase begins. -/
inductive Place where
  /-- At the start of the input. -/
  | start
  /-- Right after an opening parenthesis. -/
  | afterOpen
  /-- Right after a binary operator. -/
  | afterOperator

/-- The kinds of phrases. -/
inductive Phrase where
  /-- Terms with binary operators between them. -/
  | expression
  /-- An operand and any number of `!`. -/
  | term
  /-- A number or a group. -/
  | operand

/-- An unsigned decimal without exponent: digits, at least one, with at most one
point. -/
def IsDecimal (word : List Char) : Prop :=
  (∀ c ∈ word, isDigitOrPoint c = true) ∧ word.count '.' ≤ 1 ∧ ∃ c ∈ word, c.isDigit = true

/-- The words make up a phrase that begins at the place. -/
inductive Typable : Phrase → Place → List (List Char) → Prop where
  /-- A number. -/
  | number {place : Place} {word : List Char} : IsDecimal word → Typable .operand place [word]
  /-- A number with a sign. -/
  | signed {place : Place} {word : List Char} : place ≠ .afterOperator → IsDecimal word →
      Typable .operand place ['-' :: word]
  /-- A group. -/
  | group {place : Place} {words : List (List Char)} : place ≠ .afterOpen →
      Typable .expression .afterOpen words → Typable .operand place (['('] :: (words ++ [[')']]))
  /-- An operand alone. -/
  | operand {place : Place} {words : List (List Char)} : Typable .operand place words →
      Typable .term place words
  /-- One more `!`. -/
  | factorial {place : Place} {words : List (List Char)} : Typable .term place words →
      Typable .term place (words ++ [['!']])
  /-- A term alone. -/
  | term {place : Place} {words : List (List Char)} : Typable .term place words →
      Typable .expression place words
  /-- One more binary operator and term. -/
  | binary {place : Place} {left right : List (List Char)} (op : BinaryOperator) :
      Typable .expression place left → Typable .term .afterOperator right →
      Typable .expression place (left ++ [op.symbol] :: right)

/-- The keys are the characters of the words.  In front of a binary operator there
may be keys of others. -/
inductive Spells : List (List Char) → List Char → Prop where
  /-- No words and no keys. -/
  | nil : Spells [] []
  /-- The characters of a word. -/
  | word (word : List Char) {later : List (List Char)} {keys : List Char} :
      Spells later keys → Spells (word :: later) (word ++ keys)
  /-- A binary operator after others that it replaces. -/
  | replacing (op : BinaryOperator) {others keys : List Char} {later : List (List Char)} :
      (∀ c ∈ others, Keystroke.isBinarySymbol c = true) → Spells later keys →
      Spells ([op.symbol] :: later) (others ++ op.symbol :: keys)

/-- Is the key neither an operator nor a parenthesis nor a digit or point? -/
def isIgnored (key : Char) : Bool :=
  (Operator.ofSymbol? key).isNone && key != '(' && key != ')' && !isDigitOrPoint key

theorem exists_symbol_of_isBinarySymbol {c : Char} (h : Keystroke.isBinarySymbol c = true) :
    ∃ op : BinaryOperator, c = (Operator.binary op).symbol := by
  unfold Keystroke.isBinarySymbol at h
  split at h
  · rename_i op hop
    exact ⟨op, (Operator.symbol_of_ofSymbol? hop).symm⟩
  · cases h

/-! ## Keys of several words -/

variable {words : List (List Char)} {keys : List Char}

theorem spells_append (earlier : List (List Char)) {later : List (List Char)}
    (h : Spells (earlier ++ later) keys) :
    ∃ first rest, keys = first ++ rest ∧ Spells earlier first ∧ Spells later rest := by
  induction earlier generalizing keys with
  | nil => exact ⟨[], keys, rfl, .nil, h⟩
  | cons w earlier ih =>
    cases h with
    | word _ h =>
      obtain ⟨first, rest, rfl, hfirst, hrest⟩ := ih h
      exact ⟨w ++ first, rest, (List.append_assoc ..).symm, .word w hfirst, hrest⟩
    | replacing op hothers h =>
      obtain ⟨first, rest, rfl, hfirst, hrest⟩ := ih h
      exact ⟨_, rest, by simp, .replacing op hothers hfirst, hrest⟩

theorem eq_nil_of_spells_nil (h : Spells [] keys) : keys = [] := by
  cases h
  rfl

/-- Only binary operators replace others. -/
theorem eq_of_spells_word {word : List Char}
    (hword : ∃ c ∈ word, Keystroke.isBinarySymbol c = false) (h : Spells [word] keys) :
    keys = word := by
  cases h with
  | word _ h => rw [eq_nil_of_spells_nil h, List.append_nil]
  | replacing op _ _ =>
    obtain ⟨c, hc, hsymbol⟩ := hword
    rw [List.mem_singleton.1 hc, Line.isBinarySymbol_symbol] at hsymbol
    cases hsymbol

theorem eq_of_spells_operator {op : BinaryOperator} (h : Spells [[op.symbol]] keys) :
    ∃ others, keys = others ++ [op.symbol] ∧
      ∀ c ∈ others, Keystroke.isBinarySymbol c = true := by
  generalize hwords : [[op.symbol]] = words at h
  cases h with
  | nil => cases hwords
  | word w h =>
    cases hwords
    exact ⟨[], by rw [eq_nil_of_spells_nil h]; rfl, by simp⟩
  | replacing other hothers h =>
    obtain ⟨hsymbol, rfl⟩ : [op.symbol] = [other.symbol] ∧ [] = _ := List.cons.inj hwords
    rw [eq_nil_of_spells_nil h, List.cons.inj hsymbol |>.1]
    exact ⟨_, rfl, hothers⟩

/-! ## Keys of a phrase -/

open Line

/-- The lines behind which a phrase may begin at the place. -/
inductive Ends : Place → Line → Prop where
  /-- Nothing has been typed. -/
  | start : Ends .start []
  /-- A group has been opened. -/
  | afterOpen (earlier : Line) : Ends .afterOpen (.leftParenthesis :: earlier)
  /-- A binary operator waits for its right operand. -/
  | afterOperator (op : BinaryOperator) (earlier : Line) :
      Ends .afterOperator (.operator (.binary op) :: earlier)

/-- The line `next` holds the words behind those of `line`, ends with a complete
operand, and has no more groups open. -/
structure Holds (line : Line) (words : List (List Char)) (next : Line) : Prop where
  /-- The last operand is complete. -/
  complete : isComplete next = true
  /-- The words are behind those that were there. -/
  words_eq : Line.words next = Line.words line ++ words
  /-- What was opened is closed. -/
  balanced : opened next + closed line = opened line + closed next

variable {line : Line} {place : Place}

/-- Digits and points behind a number belong to it. -/
theorem typeKeys_digits {word : List Char} (h : ∀ c ∈ word, isDigitOrPoint c = true)
    (signs : Nat) (digits : List Char) :
    typeKeys (.number signs digits :: line) word =
      .number signs (word.reverse ++ digits) :: line := by
  induction word generalizing digits with
  | nil => rfl
  | cons c word ih =>
    have hc : isDigitOrPoint c = true := h c (List.mem_cons_self ..)
    have hpress : press (.number signs digits :: line) c = .number signs (c :: digits) :: line := by
      rw [press, type?_digit _ hc]
      rfl
    show typeKeys (press (.number signs digits :: line) c) word = _
    rw [hpress, ih fun d hd => h d (List.mem_cons_of_mem _ hd)]
    simp

/-- Where a phrase begins, a number may begin. -/
theorem press_first_digit (hplace : Ends place line) {c : Char} (hc : isDigitOrPoint c = true) :
    press line c = .number 0 [c] :: line := by
  rw [press, type?_digit _ hc]
  cases hplace <;> rfl

theorem press_sign (hplace : Ends place line) (hne : place ≠ .afterOperator) :
    press line '-' = .number 1 [] :: line := by
  cases hplace with
  | start => rfl
  | afterOpen earlier => rfl
  | afterOperator op earlier => exact absurd rfl hne

theorem press_open (hplace : Ends place line) (hne : place ≠ .afterOpen) :
    press line '(' = .leftParenthesis :: line := by
  cases hplace with
  | start => rfl
  | afterOpen earlier => exact absurd rfl hne
  | afterOperator op earlier => rfl

/-- A number holds its word, whatever its signs. -/
theorem holds_number {signs : Nat} {digits : List Char} (hdigits : digits ≠ []) :
    Holds line [List.replicate signs '-' ++ digits.reverse] (.number signs digits :: line) where
  complete := by
    cases digits with
    | nil => exact absurd rfl hdigits
    | cons => rfl
  words_eq := words_cons ..
  balanced := by simp [opened, closed]

theorem holds_unsigned {word : List Char} (hplace : Ends place line) (h : IsDecimal word) :
    Holds line [word] (typeKeys line word) := by
  obtain ⟨hdigits, -, hsome⟩ := h
  cases word with
  | nil =>
    obtain ⟨c, hc, -⟩ := hsome
    cases hc
  | cons c word =>
    have hfirst := press_first_digit hplace (hdigits c (List.mem_cons_self ..))
    have hkeys : typeKeys line (c :: word) = .number 0 (word.reverse ++ [c]) :: line := by
      show typeKeys (press line c) word = _
      rw [hfirst, typeKeys_digits fun d hd => hdigits d (List.mem_cons_of_mem _ hd)]
    have hholds : Holds line _ (.number 0 (word.reverse ++ [c]) :: line) := holds_number (by simp)
    rw [hkeys]
    simpa using hholds

theorem holds_signed {word : List Char} (hplace : Ends place line)
    (hne : place ≠ .afterOperator) (h : IsDecimal word) :
    Holds line ['-' :: word] (typeKeys line ('-' :: word)) := by
  obtain ⟨hdigits, -, c, hc, -⟩ := h
  have hkeys : typeKeys line ('-' :: word) = .number 1 word.reverse :: line := by
    show typeKeys (press line '-') word = _
    rw [press_sign hplace hne, typeKeys_digits hdigits, List.append_nil]
  have hreverse : word.reverse ≠ [] := by
    rw [Ne, List.reverse_eq_nil_iff]
    rintro rfl
    cases hc
  have hholds : Holds line _ (.number 1 word.reverse :: line) := holds_number hreverse
  rw [hkeys]
  simpa using hholds

/-! ## Keys of operators -/

theorem press_symbol_replacing (first : BinaryOperator) (op : Operator) :
    press (.operator (.binary first) :: line) op.symbol = .operator op :: line := by
  rw [press, type?_symbol]
  rfl

theorem press_symbol (h : isComplete line = true) (op : Operator) :
    press line op.symbol = .operator op :: line := by
  rw [press, type?_symbol, typeOperator_of_isComplete h]
  rfl

/-- Binary operators replace a binary operator. -/
theorem typeKeys_replacing {others : List Char}
    (h : ∀ c ∈ others, Keystroke.isBinarySymbol c = true) (first : BinaryOperator)
    (op : Operator) :
    typeKeys (.operator (.binary first) :: line) (others ++ [op.symbol]) =
      .operator op :: line := by
  induction others generalizing first with
  | nil => exact press_symbol_replacing first op
  | cons c others ih =>
    obtain ⟨b, rfl⟩ := exists_symbol_of_isBinarySymbol (h c (List.mem_cons_self ..))
    show typeKeys (press _ (Operator.binary b).symbol) (others ++ [op.symbol]) = _
    rw [press_symbol_replacing]
    exact ih (fun d hd => h d (List.mem_cons_of_mem _ hd)) b

/-- Of binary operators behind a complete operand the last one stays. -/
theorem typeKeys_operator (hcomplete : isComplete line = true) {others : List Char}
    (h : ∀ c ∈ others, Keystroke.isBinarySymbol c = true) (op : Operator) :
    typeKeys line (others ++ [op.symbol]) = .operator op :: line := by
  cases others with
  | nil => exact press_symbol hcomplete op
  | cons c others =>
    obtain ⟨b, rfl⟩ := exists_symbol_of_isBinarySymbol (h c (List.mem_cons_self ..))
    show typeKeys (press line (Operator.binary b).symbol) (others ++ [op.symbol]) = _
    rw [press_symbol hcomplete]
    exact typeKeys_replacing (fun d hd => h d (List.mem_cons_of_mem _ hd)) b op

/-! ## Keys of an expression -/

variable {next : Line}

theorem holds_group (h : Holds (.leftParenthesis :: line) words next)
    (hline : closed line ≤ opened line) :
    Holds line (['('] :: (words ++ [[')']])) (press next ')') := by
  obtain ⟨hcomplete, hwords, hbalanced⟩ := h
  have hclose : closed (.leftParenthesis :: line) = closed line := rfl
  rw [opened_leftParenthesis, hclose] at hbalanced
  have hpress : press next ')' = .rightParenthesis :: next := by
    have hlt : closed next < opened next := by omega
    show (typeClose next).getD next = _
    simp [typeClose, hcomplete, hlt]
  rw [hpress]
  refine ⟨rfl, ?_, ?_⟩
  · rw [words_cons, hwords, words_cons]
    simp [Item.chars]
  · have hopen : opened (.rightParenthesis :: next) = opened next := rfl
    rw [closed_rightParenthesis, hopen]
    omega

theorem Holds.factorial (h : Holds line words next) :
    Holds line (words ++ [['!']]) (.operator .factorial :: next) := by
  refine ⟨rfl, ?_, h.balanced⟩
  rw [words_cons, h.words_eq, List.append_assoc]
  rfl

theorem Holds.binary (op : BinaryOperator) {last : Line} {later : List (List Char)}
    (h : Holds line words next) (hlater : Holds (.operator (.binary op) :: next) later last) :
    Holds line (words ++ [op.symbol] :: later) last := by
  refine ⟨hlater.complete, ?_, ?_⟩
  · rw [hlater.words_eq, words_cons, h.words_eq]
    simp [Item.chars, Operator.symbol]
  · have hopen : opened (.operator (.binary op) :: next) = opened next := rfl
    have hclose : closed (.operator (.binary op) :: next) = closed next := rfl
    have hnext := h.balanced
    have hlast := hlater.balanced
    rw [hopen, hclose] at hlast
    omega

/-- A decimal has a character that is no operator. -/
theorem IsDecimal.exists_not_binarySymbol {word : List Char} (h : IsDecimal word) :
    ∃ c ∈ word, Keystroke.isBinarySymbol c = false := by
  obtain ⟨hdigits, -, c, hc, -⟩ := h
  exact ⟨c, hc, isBinarySymbol_of_isDigitOrPoint (hdigits c hc)⟩

/-- **The keys of a phrase put its words on the display.** -/
theorem holds_typeKeys {phrase : Phrase} (h : Typable phrase place words)
    (hkeys : Spells words keys) (hplace : Ends place line) (hline : closed line ≤ opened line) :
    Holds line words (typeKeys line keys) := by
  induction h generalizing line keys with
  | number hword =>
    rw [eq_of_spells_word hword.exists_not_binarySymbol hkeys]
    exact holds_unsigned hplace hword
  | signed hne hword =>
    obtain ⟨c, hc, hsymbol⟩ := hword.exists_not_binarySymbol
    rw [eq_of_spells_word ⟨c, List.mem_cons_of_mem _ hc, hsymbol⟩ hkeys]
    exact holds_signed hplace hne hword
  | @group place words hne _ ih =>
    obtain ⟨first, rest, rfl, hfirst, hrest⟩ := spells_append [['(']] hkeys
    obtain ⟨inner, last, rfl, hinner, hlast⟩ := spells_append _ hrest
    rw [eq_of_spells_word ⟨_, List.mem_cons_self .., rfl⟩ hfirst,
      eq_of_spells_word ⟨_, List.mem_cons_self .., rfl⟩ hlast, typeKeys_append, typeKeys_append]
    show Holds line _ (press (typeKeys (press line '(') inner) ')')
    rw [press_open hplace hne]
    have hopened : closed (.leftParenthesis :: line) ≤ opened (.leftParenthesis :: line) := by
      rw [opened_leftParenthesis]
      exact Nat.le_succ_of_le hline
    exact holds_group (ih hinner (.afterOpen line) hopened) hline
  | operand _ ih => exact ih hkeys hplace hline
  | factorial _ ih =>
    obtain ⟨first, last, rfl, hfirst, hlast⟩ := spells_append _ hkeys
    have hholds := ih hfirst hplace hline
    rw [eq_of_spells_word ⟨_, List.mem_cons_self .., rfl⟩ hlast, typeKeys_append]
    show Holds line _ (press _ Operator.factorial.symbol)
    rw [press_symbol hholds.complete]
    exact hholds.factorial
  | term _ ih => exact ih hkeys hplace hline
  | @binary place left right op _ _ ihl ihr =>
    obtain ⟨first, rest, rfl, hfirst, hrest⟩ := spells_append _ hkeys
    obtain ⟨middle, last, rfl, hmiddle, hlast⟩ := spells_append [[op.symbol]] hrest
    obtain ⟨others, rfl, hothers⟩ := eq_of_spells_operator hmiddle
    have hleft := ihl hfirst hplace hline
    have hoperator : typeKeys (typeKeys line first) (others ++ [op.symbol]) =
        .operator (.binary op) :: typeKeys line first :=
      typeKeys_operator hleft.complete hothers (.binary op)
    rw [typeKeys_append, typeKeys_append, hoperator]
    refine hleft.binary op (ihr hlast (.afterOperator op _) ?_)
    have hbalanced := hleft.balanced
    show closed (typeKeys line first) ≤ opened (typeKeys line first)
    omega

/-! ## Ignored keys -/

theorem press_ignored {key : Char} (h : isIgnored key = true) (line : Line) :
    press line key = line := by
  simp only [isIgnored, Bool.and_eq_true, bne_iff_ne, Option.isNone_iff_eq_none,
    Bool.not_eq_true'] at h
  obtain ⟨⟨⟨hsymbol, hopen⟩, hclose⟩, hdigit⟩ := h
  simp [press, type?, hsymbol, hopen, hclose, hdigit]

theorem typeKeys_filter (line : Line) (keys : List Char) :
    typeKeys line (keys.filter fun key => !isIgnored key) = typeKeys line keys := by
  induction keys generalizing line with
  | nil => rfl
  | cons key keys ih =>
    by_cases hkey : isIgnored key = true
    · rw [List.filter_cons_of_neg (by simp [hkey]), ih]
      show _ = typeKeys (press line key) keys
      rw [press_ignored hkey]
    · rw [List.filter_cons_of_pos (by simp [hkey])]
      exact ih (press line key)

/-- The keys of an expression, with ignored keys anywhere between them, leave its
words on the display. -/
theorem words_typeKeys (hwords : Typable .expression .start words)
    (hkeys : Spells words (keys.filter fun key => !isIgnored key)) :
    Text.words (Display.typeKeys {} keys).chars = words := by
  have hholds := holds_typeKeys hwords hkeys .start (Nat.le_refl 0)
  rw [typeKeys_filter] at hholds
  rw [chars_typeKeys, words_backward (wellFormed_typeKeys .nil keys)]
  exact hholds.words_eq

end Typing
end DeskCalculator
