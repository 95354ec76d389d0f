import DeskCalculator.Proofs.Display.Operands
import DeskCalculator.Proofs.Display.Refinement
import DeskCalculator.Proofs.ReversePolish.Supply

/-!
# How typed text can fail

Typed text can still be wrong where the rules for keys do not look: a word of signs,
digits and points may be no number, a group may be left open, a number may stand
beside a parenthesis, and a sign may be all there is.  There is no other failure
besides that of an operator that rejects its operands (`typedFailure_of_evaluate`).

The invariant is that of a conversion that has read the words of a line (`Reading`):
the positions of its open groups are those of opening parentheses, as many as the
line has open, and it supplies one operand for every number that no binary operator
has taken.
-/

namespace DeskCalculator
namespace Line

open ReversePolish (Conversion openGroups)

variable {line : Line} {c next : Conversion}

/-! ## Open groups -/

/-- The groups that a conversion has open are those of the line. -/
structure Grouped (line : Line) (c : Conversion) : Prop where
  /-- Their positions are those of opening parentheses. -/
  positions : ∀ p ∈ openGroups c.pending, (words line)[p]? = some ['(']
  /-- They are as many as have been opened and not closed. -/
  balanced : (openGroups c.pending).length + closed line = opened line

theorem getElem?_words_cons {p : Nat} {word : List Char} (h : (words line)[p]? = some word)
    (item : Item) : (words (item :: line))[p]? = some word := by
  obtain ⟨hlt, -⟩ := List.getElem?_eq_some_iff.1 h
  rw [words_cons, List.getElem?_append_left hlt, h]

theorem getElem?_words_length (item : Item) (line : Line) :
    (words (item :: line))[(words line).length]? = some item.chars := by
  rw [words_cons, List.getElem?_append_right (Nat.le_refl _), Nat.sub_self]
  rfl

/-- Words that are no parentheses leave the groups alone. -/
theorem Grouped.cons (h : Grouped line c) {item : Item} (hopen : item ≠ .leftParenthesis)
    (hclose : item ≠ .rightParenthesis)
    (hgroups : openGroups next.pending = openGroups c.pending) : Grouped (item :: line) next := by
  refine ⟨?_, ?_⟩
  · intro p hp
    rw [hgroups] at hp
    exact getElem?_words_cons (h.positions p hp) item
  · have hopened : opened (item :: line) = opened line := List.count_cons_of_ne hopen
    have hclosed : closed (item :: line) = closed line := List.count_cons_of_ne hclose
    rw [hgroups, hopened, hclosed]
    exact h.balanced

theorem openGroups_operator (c : Conversion) (op : Operator) :
    openGroups (c.operator op).pending = openGroups c.pending := by
  rw [Conversion.pending_operator]
  exact ReversePolish.openGroups_release op.precedence c.pending

theorem Grouped.openGroup (h : Grouped line c) :
    Grouped (.leftParenthesis :: line) (c.openGroup (words line).length) := by
  have hgroups : openGroups (c.openGroup (words line).length).pending =
      (words line).length :: openGroups c.pending := rfl
  refine ⟨?_, ?_⟩
  · intro p hp
    rw [hgroups] at hp
    rcases List.mem_cons.1 hp with rfl | hp
    · exact getElem?_words_length .leftParenthesis line
    · exact getElem?_words_cons (h.positions p hp) _
  · have hbalanced := h.balanced
    have hclosed : closed (.leftParenthesis :: line) = closed line := rfl
    rw [hgroups, opened_leftParenthesis, hclosed, List.length_cons]
    omega

theorem Grouped.closeGroup (h : Grouped line c) {opening : Nat} {outer : List Nat}
    (hgroups : openGroups c.pending = opening :: outer)
    (hnext : openGroups next.pending = outer) : Grouped (.rightParenthesis :: line) next := by
  refine ⟨?_, ?_⟩
  · intro p hp
    rw [hnext] at hp
    refine getElem?_words_cons (h.positions p ?_) _
    rw [hgroups]
    exact List.mem_cons_of_mem _ hp
  · have hbalanced := h.balanced
    have hopened : opened (.rightParenthesis :: line) = opened line := rfl
    rw [hgroups, List.length_cons] at hbalanced
    rw [hnext, closed_rightParenthesis, hopened]
    omega

/-! ## Reading the words of a line -/

/-- A conversion has read the words of a line. -/
structure Reading (line : Line) (c : Conversion) : Prop where
  /-- Its open groups are those of the line. -/
  grouped : Grouped line c
  /-- It supplies the operands that no binary operator has taken.  A sign alone is read
  as an operator, but nothing may follow it. -/
  supplies : endsInSign line = false → ∃ n, n + binaries line = numbers line ∧ c.Supplies 0 n

/-- What reading the words of a line ends with. -/
inductive Outcome (line : Line) : Except ParseError Conversion → Prop where
  /-- A word like a number is none. -/
  | malformed {word : List Char} {position : Nat} : (words line)[position]? = some word →
      IsNumberLike word → Decimal.Literal.ofText? word = none →
      Outcome line (.error (.malformedToken (String.ofList word) position))
  /-- All words have been read. -/
  | ok {c : Conversion} : Reading line c → Outcome line (.ok c)

theorem Reading.number (h : Reading line c) (hsign : endsInSign line = false) (signs : Nat)
    (digits : List Char) (x : Float) : Reading (.number signs digits :: line) (c.number x) := by
  obtain ⟨n, hcount, hsupplies⟩ := h.supplies hsign
  refine ⟨h.grouped.cons (by simp) (by simp) rfl, fun _ => ⟨n + 1, ?_, hsupplies.number x⟩⟩
  have hbinaries : binaries (.number signs digits :: line) = binaries line := rfl
  rw [numbers_number, hbinaries]
  omega

/-- A sign alone is an operator. -/
theorem Reading.sign (h : Reading line c) :
    Reading (.number 1 [] :: line) (c.operator (.binary .subtract)) := by
  refine ⟨h.grouped.cons (by simp) (by simp) (openGroups_operator c _), ?_⟩
  intro hsign
  cases hsign

/-- A complete operand is one that the conversion supplies. -/
theorem Reading.exists_operand (h : Reading line c) (hline : WellFormed line)
    (hcomplete : isComplete line = true) :
    ∃ n, n + 1 + binaries line = numbers line ∧ c.Supplies 0 (n + 1) := by
  have hlt := (binaries_le_numbers hline).2 hcomplete
  obtain ⟨n, hcount, hsupplies⟩ := h.supplies (endsInSign_of_isComplete hcomplete)
  obtain ⟨m, rfl⟩ : ∃ m, n = m + 1 := ⟨n - 1, by omega⟩
  exact ⟨m, hcount, hsupplies⟩

theorem Reading.operator (h : Reading line c) (hline : WellFormed line)
    (hcomplete : isComplete line = true) (op : Operator) :
    Reading (.operator op :: line) (c.operator op) := by
  obtain ⟨n, hcount, hsupplies⟩ := h.exists_operand hline hcomplete
  refine ⟨h.grouped.cons (by simp) (by simp) (openGroups_operator c op), fun _ => ?_⟩
  have hnumbers : numbers (.operator op :: line) = numbers line := rfl
  rw [hnumbers]
  cases op with
  | binary b =>
    rw [binaries_binary]
    exact ⟨n, by omega, hsupplies.binary b⟩
  | factorial => exact ⟨n + 1, hcount, hsupplies.factorial⟩

theorem Reading.openGroup (h : Reading line c) (hsign : endsInSign line = false) :
    Reading (.leftParenthesis :: line) (c.openGroup (words line).length) := by
  obtain ⟨n, hcount, hsupplies⟩ := h.supplies hsign
  exact ⟨h.grouped.openGroup, fun _ => ⟨n, hcount, hsupplies.openGroup _⟩⟩

/-- In an open group a closing parenthesis is read. -/
theorem Reading.closeGroup (h : Reading line c) (hline : WellFormed line)
    (hcomplete : isComplete line = true) (hopen : closed line < opened line) (position : Nat) :
    ∃ next, c.token position .rightParenthesis = .ok next ∧
      Reading (.rightParenthesis :: line) next := by
  obtain ⟨n, hcount, hsupplies⟩ := h.exists_operand hline hcomplete
  have hne : openGroups c.pending ≠ [] := by
    intro hnil
    have hbalanced := h.grouped.balanced
    rw [hnil, List.length_nil] at hbalanced
    omega
  obtain ⟨opening, outer, hgroups⟩ := List.exists_cons_of_ne_nil hne
  obtain ⟨ops, rest, hpending, hrest, hclose⟩ :=
    Conversion.closeGroup_of_openGroups hgroups position
  refine ⟨c.write ops rest, ?_, h.grouped.closeGroup hgroups hrest, fun _ => ?_⟩
  · rw [Conversion.token, hclose]
  · exact ⟨n + 1, hcount, hsupplies.closeGroup hpending⟩

/-- A word more is read after the others. -/
theorem Outcome.cons {item : Item} (h : Outcome line (({} : Conversion).words 0 (words line)))
    (hitem : ∀ c, Reading line c →
      Outcome (item :: line) (c.words (words line).length [item.chars])) :
    Outcome (item :: line) (({} : Conversion).words 0 (words (item :: line))) := by
  rw [words_cons, Conversion.words_append, Nat.zero_add]
  generalize ({} : Conversion).words 0 (words line) = outcome at h ⊢
  cases h with
  | malformed hword hlike hnone => exact .malformed (getElem?_words_cons hword item) hlike hnone
  | ok hreading => exact hitem _ hreading

/-- **The words of a line are read**, unless a word like a number is none. -/
theorem outcome_words (h : WellFormed line) :
    Outcome line (({} : Conversion).words 0 (words line)) := by
  induction h with
  | nil => exact .ok ⟨⟨by simp [openGroups], rfl⟩, fun _ => ⟨0, rfl, rfl⟩⟩
  | @number signs digits earlier hearlier hadmits hdigits hpos ih =>
    refine ih.cons ?_
    intro c hreading
    have hline := WellFormed.number hearlier hadmits hdigits hpos
    cases hsign : endsInSign (.number signs digits :: earlier) with
    | true =>
      obtain ⟨_, hcons⟩ := eq_number_of_endsInSign hsign
      obtain ⟨⟨rfl, rfl⟩, rfl⟩ : (signs = 1 ∧ digits = []) ∧ earlier = _ := by
        simpa using hcons
      have hminus : (Item.number 1 []).chars = [(Operator.binary .subtract).symbol] := rfl
      rw [hminus, Conversion.words_singleton (Token.ofWord?_symbol _)]
      exact .ok hreading.sign
    | false =>
      have hlike := isNumberLike_chars hline hsign
      rcases Token.ofWord?_of_isNumberLike hlike with ⟨x, hx⟩ | ⟨hnone, hliteral⟩
      · rw [Conversion.words_singleton hx]
        exact .ok (hreading.number (endsInSign_of_admitsNumber hadmits) signs digits x)
      · rw [Conversion.words_cons_error hnone]
        exact .malformed (getElem?_words_length _ earlier) hlike hliteral
  | operator hearlier hcomplete ih =>
    refine ih.cons ?_
    intro c hreading
    rw [Item.chars, Conversion.words_singleton (Token.ofWord?_symbol _)]
    exact .ok (hreading.operator hearlier hcomplete _)
  | leftParenthesis _ hadmits ih =>
    refine ih.cons ?_
    intro c hreading
    rw [Item.chars, Conversion.words_singleton Token.ofWord?_leftParenthesis]
    exact .ok (hreading.openGroup (endsInSign_of_admitsGroup hadmits))
  | rightParenthesis hearlier hcomplete hlt ih =>
    refine ih.cons ?_
    intro c hreading
    rw [Item.chars, Conversion.words_singleton Token.ofWord?_rightParenthesis]
    obtain ⟨next, hnext, hreading'⟩ := hreading.closeGroup hearlier hcomplete hlt _
    rw [hnext]
    exact .ok hreading'

/-! ## Failures -/

/-- How typed text can fail. -/
inductive TypedFailure (text : List Char) : CalculationError → Prop where
  /-- A word of signs, digits and points is no number. -/
  | malformedToken {word : List Char} {position : Nat} :
      (Text.words text)[position]? = some word →
      (∀ c ∈ word, c = '-' ∨ isDigitOrPoint c = true) → Decimal.Literal.ofText? word = none →
      TypedFailure text (.parse (.malformedToken (String.ofList word) position))
  /-- An opening parenthesis has no partner. -/
  | unbalancedParenthesis {position : Nat} : (Text.words text)[position]? = some ['('] →
      TypedFailure text (.parse (.unbalancedParenthesis position))
  /-- There is nothing but a sign. -/
  | missingOperand : text = ['-'] →
      TypedFailure text (.evaluation (.missingOperand (.binary .subtract)))
  /-- A number stands right behind `)` or right before `(`. -/
  | malformedExpression {word : List Char} {x : Float} {remaining : Nat} :
      Token.ofWord? word = some (.number x) → Adjacent word (Text.words text) →
      TypedFailure text (.evaluation (.malformedExpression remaining))
  /-- An operator rejects its operands. -/
  | domain (d : DomainError) : TypedFailure text (.evaluation (.domain d))

variable {text : List Char} {e : CalculationError}

/-- Text whose words are read fails at an open group, or else when the sequence that
has been written is evaluated. -/
theorem Grouped.failure (h : Grouped line c) (hwords : Text.words text = words line)
    (hread : ({} : Conversion).words 0 (words line) = .ok c)
    (he : evaluateChars text = .error e) :
    TypedFailure text e ∨ ∃ ops cause, c.pending = ReversePolish.waiting ops ∧
      ReversePolish.evaluate (c.write ops []).output = .error cause ∧ e = .evaluation cause := by
  rw [evaluateChars, ReversePolish.ofChars, ReversePolish.ofWords, hwords, hread] at he
  rcases Conversion.finish_eq c with
    ⟨ops, hpending, hfinish⟩ | ⟨position, outer, ops, hgroups, hfinish⟩
  · right
    simp only [hfinish] at he
    cases hcause : ReversePolish.evaluate (c.write ops []).output with
    | ok n =>
      rw [hcause] at he
      cases he
    | error cause =>
      rw [hcause] at he
      cases he
      exact ⟨ops, cause, hpending, hcause, rfl⟩
  · left
    simp only [hfinish] at he
    cases he
    have hposition := h.positions position (by rw [hgroups]; exact List.mem_cons_self ..)
    exact .unbalancedParenthesis (by rw [hwords]; exact hposition)

/-- A sequence that supplies too many operands comes from a number beside a
parenthesis. -/
theorem Reading.failure (h : Reading line c) (hline : WellFormed line)
    (hsign : endsInSign line = false) (hwords : Text.words text = words line)
    (hread : ({} : Conversion).words 0 (words line) = .ok c) {ops : List Operator}
    (hpending : c.pending = ReversePolish.waiting ops) {cause : EvaluationError}
    (hcause : ReversePolish.evaluate (c.write ops []).output = .error cause) :
    TypedFailure text (.evaluation cause) := by
  obtain ⟨n, hcount, hsupplies⟩ := h.supplies hsign
  match n, hcount, hsupplies with
  | 0, _, hsupplies =>
    -- a binary operator in the end may take the implicit zero
    have hheight := (hsupplies.add 1).finish hpending
    obtain ⟨d, rfl⟩ := ReversePolish.evaluate_of_height_one true hheight hcause
    exact .domain d
  | 1, _, hsupplies =>
    have hheight := hsupplies.finish hpending
    obtain ⟨d, rfl⟩ := ReversePolish.evaluate_of_height_one false hheight hcause
    exact .domain d
  | n + 2, hcount, hsupplies =>
    have hheight := hsupplies.finish hpending
    rcases ReversePolish.evaluate_of_height_of_two_le hheight (Nat.le_add_left 2 n) hcause with
      ⟨d, rfl⟩ | rfl
    · exact .domain d
    · rcases numbers_le_binaries hline with ⟨word, hlike, hadjacent⟩ | ⟨hle, _⟩
      · obtain ⟨t, ht⟩ := Conversion.exists_token_of_words hread word hadjacent.mem
        rcases Token.ofWord?_of_isNumberLike hlike with ⟨x, hx⟩ | ⟨hnone, _⟩
        · exact .malformedExpression hx (by rw [hwords]; exact hadjacent)
        · rw [hnone] at ht
          cases ht
      · omega

/-- Behind a sign alone a group is open, unless the sign is all there is. -/
theorem Grouped.eq_sign (h : Grouped line c) (hline : WellFormed line)
    (hsign : endsInSign line = true) {ops : List Operator}
    (hpending : c.pending = ReversePolish.waiting ops) : line = [.number 1 []] := by
  have hbalanced := h.balanced
  rw [hpending, ReversePolish.openGroups_waiting, List.length_nil, Nat.zero_add] at hbalanced
  obtain ⟨earlier, rfl⟩ := eq_number_of_endsInSign hsign
  match earlier, hline with
  | [], _ => rfl
  | .leftParenthesis :: earlier, .number (.leftParenthesis hearlier _) _ _ _ =>
    have hle := closed_le_opened hearlier
    have hopened : opened (.number 1 [] :: .leftParenthesis :: earlier) = opened earlier + 1 :=
      opened_leftParenthesis earlier
    have hclosed : closed (.number 1 [] :: .leftParenthesis :: earlier) = closed earlier := rfl
    rw [hopened, hclosed] at hbalanced
    omega

/-- **How typed text can fail.**  Whatever keys are typed on an empty display, if the
text has no value, then a word of signs, digits and points is no number, a `(` has no
partner, the text is a sign alone, a number stands right behind `)` or right before
`(`, or an operator rejects its operands. -/
theorem typedFailure_of_evaluate {keys : List Char}
    (he : evaluate (Display.typeKeys {} keys).text = .error e) :
    TypedFailure (Display.typeKeys {} keys).chars e := by
  have hline : WellFormed (typeKeys [] keys) := wellFormed_typeKeys .nil keys
  have hwords := words_backward hline
  rw [evaluate, Display.text, String.toList_ofList] at he
  rw [chars_typeKeys] at he ⊢
  generalize typeKeys [] keys = line at hline hwords he ⊢
  have houtcome := outcome_words hline
  cases hread : ({} : Conversion).words 0 (words line) with
  | error cause =>
    rw [hread] at houtcome
    rw [evaluateChars, ReversePolish.ofChars, ReversePolish.ofWords, hwords, hread] at he
    cases he
    cases houtcome with
    | malformed hword hlike hnone => exact .malformedToken (by rwa [hwords]) hlike.1 hnone
  | ok c =>
    rw [hread] at houtcome
    cases houtcome with
    | ok hreading =>
      rcases hreading.grouped.failure hwords hread he with
        hfailure | ⟨ops, cause, hpending, hcause, rfl⟩
      · exact hfailure
      · cases hsign : endsInSign line with
        | false => exact hreading.failure hline hsign hwords hread hpending hcause
        | true =>
          obtain rfl := hreading.grouped.eq_sign hline hsign hpending
          have htext : (backward [.number 1 []]).reverse = ['-'] := rfl
          have hminus : evaluateChars ['-'] =
              .error (.evaluation (.missingOperand (.binary .subtract))) := rfl
          rw [htext, hminus] at he
          cases he
          exact .missingOperand htext

/-- A digit may be typed right behind a group, and then a value is left over. -/
theorem typedFailure_number_behind_group :
    evaluate (Display.typeKeys {} ['(', '3', ')', '5']).text =
        .error (.evaluation (.malformedExpression 2)) ∧
      TypedFailure (Display.typeKeys {} ['(', '3', ')', '5']).chars
        (.evaluation (.malformedExpression 2)) := by
  have he : evaluate (Display.typeKeys {} ['(', '3', ')', '5']).text =
      .error (.evaluation (.malformedExpression 2)) := rfl
  exact ⟨he, typedFailure_of_evaluate he⟩

end Line
end DeskCalculator
