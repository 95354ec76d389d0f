import DeskCalculator.Proofs.ReversePolish.Permutation
import DeskCalculator.Proofs.Text.Words
import DeskCalculator.Proofs.Token.Reading

/-!
# A group is read like a text of its own

An open group hides what waits below it: operators inside release nothing outside
(`release_nest`), and a group that closes inside has opened inside.  So reading words
in a group runs in step with reading them as a text of their own (`words_nested`),
whatever waits outside and whatever was written before.  The parenthesis that closes
the group writes what the end of the text would write, so a text that is converted is
converted to the same sequence in parentheses (`ofText_parenthesized`).
-/

namespace DeskCalculator
namespace ReversePolish

/-! ## Stacks above an open group -/

/-- The entry in a text whose first word has the position `start`. -/
def Pending.shift (start : Nat) : Pending → Pending
  | .group position => .group (start + position)
  | .operator op => .operator op

/-- The stack `inner` of a text of its own, where this text stands in a group that opened
at a position above the stack `outer`. -/
def nest (opening : Nat) (outer inner : List Pending) : List Pending :=
  inner.map (.shift (opening + 1)) ++ .group opening :: outer

variable {opening : Nat} {outer inner : List Pending} {ops : List Operator}

@[simp] theorem nest_nil : nest opening outer [] = .group opening :: outer := rfl

@[simp] theorem nest_operator (op : Operator) :
    nest opening outer (.operator op :: inner) = .operator op :: nest opening outer inner := rfl

@[simp] theorem nest_group (position : Nat) :
    nest opening outer (.group position :: inner) =
      .group (opening + 1 + position) :: nest opening outer inner := rfl

/-- Waiting operators have no positions. -/
theorem nest_waiting_append (ops : List Operator) (inner : List Pending) :
    nest opening outer (waiting ops ++ inner) = waiting ops ++ nest opening outer inner := by
  induction ops with
  | nil => rfl
  | cons op ops ih => simp [ih]

/-- Nothing outside is released from inside. -/
theorem release_nest (precedence : Nat) (inner : List Pending) :
    release precedence (nest opening outer inner) =
      ((release precedence inner).1, nest opening outer (release precedence inner).2) := by
  induction inner with
  | nil => rfl
  | cons entry inner ih =>
    cases entry with
    | group position => rfl
    | operator op =>
      rw [nest_operator, release, release]
      split
      · simp [ih]
      · rfl

/-! ## Reading in a group -/

namespace Conversion

/-- The conversion `c` of a text of its own, where this text stands in a group that opened
at a position in the conversion `outside`. -/
def nested (opening : Nat) (outside c : Conversion) : Conversion :=
  { pending := nest opening outside.pending c.pending
    written := c.written ++ outside.written }

variable {outside c next : Conversion} {position : Nat} {t : Token} {ws : List (List Char)}

/-- Opening the group starts the text. -/
theorem nested_empty : nested opening outside {} = outside.openGroup opening := rfl

theorem nested_write (ops : List Operator) (kept : List Pending) :
    nested opening outside (c.write ops kept) =
      (nested opening outside c).write ops (nest opening outside.pending kept) := by
  simp [nested, write]

theorem nested_operator (op : Operator) :
    nested opening outside (c.operator op) = (nested opening outside c).operator op := by
  have hrelease : release op.precedence (nest opening outside.pending c.pending) = _ :=
    release_nest op.precedence c.pending
  simp [operator, nested, write, hrelease]

/-- A token that is read in a text of its own is read in the group. -/
theorem token_nested (h : c.token position t = .ok next) :
    (nested opening outside c).token (opening + 1 + position) t =
      .ok (nested opening outside next) := by
  cases t with
  | number x =>
    cases h
    rfl
  | operator op =>
    cases h
    rw [nested_operator]
    rfl
  | leftParenthesis =>
    cases h
    rfl
  | rightParenthesis =>
    obtain ⟨ops, p, rest, hpending, rfl⟩ := exists_write_of_closeGroup h
    have hinside : (nested opening outside c).pending =
        waiting ops ++ .group (opening + 1 + p) :: nest opening outside.pending rest := by
      rw [nested, hpending, nest_waiting_append, nest_group]
    rw [token, closeGroup_eq hinside, nested_write]

/-- **Words that are read in a text of their own are read in the group.** -/
theorem words_nested (h : c.words position ws = .ok next) :
    (nested opening outside c).words (opening + 1 + position) ws =
      .ok (nested opening outside next) := by
  induction ws generalizing c position with
  | nil =>
    cases h
    rfl
  | cons word ws ih =>
    obtain ⟨t, ht⟩ := exists_token_of_words h word (List.mem_cons_self ..)
    rw [words_cons ht] at h ⊢
    cases hnext : c.token position t with
    | error e =>
      rw [hnext] at h
      cases h
    | ok after =>
      rw [hnext] at h
      rw [token_nested hnext]
      exact ih h

/-- The parenthesis that closes the group writes what the end of the text writes. -/
theorem closeGroup_nested (h : c.pending = waiting ops) (position : Nat) :
    (nested opening outside c).token position .rightParenthesis =
      .ok ((nested opening outside c).write ops outside.pending) := by
  have hpending : (nested opening outside c).pending =
      waiting ops ++ .group opening :: outside.pending := by
    have hinside : nest opening outside.pending (waiting ops ++ []) = _ :=
      nest_waiting_append ops []
    rw [List.append_nil, nest_nil] at hinside
    rw [nested, h]
    exact hinside
  rw [token, closeGroup_eq hpending]

/-- **A group is transparent.**  In parentheses, words are written as they are without, and
what waited before waits after. -/
theorem words_group {tokens : List Token} (h : ofWords ws = .ok tokens)
    (c : Conversion) (position : Nat) :
    ∃ next, c.words position (['('] :: ws ++ [[')']]) = .ok next ∧
      next.pending = c.pending ∧ next.output = c.output ++ tokens := by
  obtain ⟨inside, ops, hinside, hpending, rfl⟩ := exists_conversion_of_ofWords h
  refine ⟨(nested position c inside).write ops c.pending, ?_, rfl, ?_⟩
  · have hwords : (nested position c {}).words (position + 1 + 0) ws = _ := words_nested hinside
    rw [nested_empty, Nat.add_zero] at hwords
    rw [List.cons_append, words_cons Token.ofWord?_leftParenthesis]
    show (c.openGroup position).words (position + 1) (ws ++ [[')']]) = _
    rw [words_append, hwords]
    show (nested position c inside).words _ [[')']] = _
    rw [words_singleton Token.ofWord?_rightParenthesis, closeGroup_nested hpending]
  · simp [output, write, nested]

end Conversion

/-! ## Texts in parentheses -/

/-- The words of a text in parentheses. -/
theorem words_parenthesized (text : List Char) :
    Text.words ("( ".toList ++ text ++ " )".toList) = ['('] :: Text.words text ++ [[')']] := by
  have hspace : Text.isBlank ' ' = true := by decide
  have hword (t : Token) (w : List Char) (h : Token.ofWord? w = some t) : Text.words w = [w] :=
    Text.words_of_isWord (Token.isWord_of_ofWord? h)
  have hsplit : "( ".toList ++ text ++ " )".toList = ['('] ++ ' ' :: (text ++ ' ' :: [')']) := by
    simp
  rw [hsplit, Text.words_append_blank hspace, Text.words_append_blank hspace,
    hword _ _ Token.ofWord?_leftParenthesis, hword _ _ Token.ofWord?_rightParenthesis]
  rfl

/-- **A text that is converted is converted alike in parentheses**, in whatever state its
words are read: what waited before the group waits after it, and the sequence of the text
is written behind what was written before. -/
theorem ofText_parenthesized {text : String} {tokens : List Token}
    (h : ofText text = .ok tokens) :
    (∀ (c : Conversion) (position : Nat), ∃ next,
      c.words position (['('] :: Text.words text.toList ++ [[')']]) = .ok next ∧
        next.pending = c.pending ∧ next.output = c.output ++ tokens) ∧
      ofText ("( " ++ text ++ " )") = ofText text := by
  have hwords : ofWords (Text.words text.toList) = .ok tokens := h
  have hgroup := Conversion.words_group hwords
  refine ⟨hgroup, ?_⟩
  obtain ⟨last, hlast, hpending, houtput⟩ := hgroup {} 0
  have hfinish : last.finish = (.ok (), last.write [] []) := Conversion.finish_eq_ok hpending
  have hwritten : (last.write [] []).output = tokens := by
    rw [Conversion.output_write, houtput]
    simp [Conversion.output]
  rw [h, ofText, String.toList_append, String.toList_append, ofChars, words_parenthesized,
    ofWords, hlast]
  simp only [hfinish, hwritten]

/-- Operators without operands are moved as they would be outside, and what waits below
stays: the `^` outside is not released by the `+` inside. -/
theorem ofText_parenthesized_stray_operators :
    ofText "+ ( 2 3 ! ) 4 *" =
        .ok [.number 2, .number 3, .operator .factorial, .number 4,
          .operator (.binary .multiply), .operator (.binary .add)] ∧
      (∃ next, (⟨[.operator (.binary .power), .group 0], [.number 7]⟩ : Conversion).words 3
            (['('] :: Text.words "+ ( 2 3 ! ) 4 *".toList ++ [[')']]) = .ok next ∧
        next.pending = [.operator (.binary .power), .group 0] ∧
        next.output = [.number 7, .number 2, .number 3, .operator .factorial, .number 4,
          .operator (.binary .multiply), .operator (.binary .add)]) ∧
      ofText ("( " ++ "+ ( 2 3 ! ) 4 *" ++ " )") = ofText "+ ( 2 3 ! ) 4 *" := by
  have htext : ofText "+ ( 2 3 ! ) 4 *" =
      .ok [.number 2, .number 3, .operator .factorial, .number 4,
        .operator (.binary .multiply), .operator (.binary .add)] := by decide +kernel
  obtain ⟨hstate, halone⟩ := ofText_parenthesized htext
  exact ⟨htext, hstate _ 3, halone⟩

end ReversePolish
end DeskCalculator
