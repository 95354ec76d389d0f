import DeskCalculator.Proofs.Infix.Evaluation
import DeskCalculator.Proofs.ReversePolish.Classification

/-!
# The implicit zero as first operand

The first number of an expression is its leftmost leaf: nothing but opening
parentheses stands in front of it.  Without the word of this number the expression is
still read in its post-order, less the number (`reads_eraseP`).  If the number is
zero, the run on what is left is the run on the whole with the implicit zero in its
place: the two stacks differ in whether the lowest entry is a value or the implicit
zero, and never in the entries (`leaves_run_tail`).  So the text without the word
evaluates as the text with it (`evaluate_of_words_eq_eraseP`).
-/

namespace DeskCalculator

/-- Does the word stand for a number? -/
def Token.isNumeral (word : List Char) : Bool :=
  (ofWord? word).any isNumber

namespace Infix

open ReversePolish

variable {t : Tier}

/-! ## The first number -/

theorem Numeral.isNumeral_word (n : Numeral) : Token.isNumeral n.word = true := by
  rw [Token.isNumeral, n.ofWord?_word]
  rfl

namespace Expression

/-- The first number of an expression. -/
def first {t : Tier} : Expression t → Numeral
  | .number n => n
  | .group e | .factorial e => e.first
  | .binary _ left _ => left.first
  | .ofProduct e | .ofPower e | .ofAtom e => e.first

/-- The first number word is the word of the first number. -/
theorem find?_words (e : Expression t) :
    e.words.find? Token.isNumeral = some e.first.word := by
  induction e with
  | number n => simp [words, first, n.isNumeral_word]
  | group e ih =>
    rw [words, List.find?_cons_of_neg (by decide), List.find?_append, ih]
    rfl
  | factorial e ih =>
    rw [words, List.find?_append, ih]
    rfl
  | binary op left right ihl _ =>
    rw [words, List.find?_append, ihl]
    rfl
  | ofProduct e ih => exact ih
  | ofPower e ih => exact ih
  | ofAtom e ih => exact ih

/-- Behind the first number, words are deleted from neither side. -/
theorem eraseP_words_append (e : Expression t) (later : List (List Char)) :
    (e.words ++ later).eraseP Token.isNumeral = e.words.eraseP Token.isNumeral ++ later :=
  List.eraseP_append_left e.first.isNumeral_word later (List.mem_of_find?_eq_some e.find?_words)

theorem postorder_ne_nil (e : Expression t) : e.postorder ≠ [] := by
  induction e with
  | number n => simp [postorder]
  | group e ih => exact ih
  | factorial e ih => simp [postorder]
  | binary op left right ihl ihr => simp [postorder]
  | ofProduct e ih => exact ih
  | ofPower e ih => exact ih
  | ofAtom e ih => exact ih

end Expression

/-! ## Reading without the first number -/

/-- **Without its first number word an expression is read as the rest of its
post-order**, whatever waits below and whatever was written before. -/
theorem reads_eraseP (e : Expression t) {c : Conversion} (position : Nat)
    (hc : Settled c t.level) :
    Reads c t.level position (e.words.eraseP Token.isNumeral) e.postorder.tail := by
  induction e generalizing c position with
  | number n =>
    have hnil : (Expression.number n).words.eraseP Token.isNumeral = [] := by
      simp [Expression.words, n.isNumeral_word]
    rw [hnil]
    exact ⟨c, [], rfl, by simp, rfl, by simp [Expression.postorder]⟩
  | group e ih =>
    rw [Expression.words, List.eraseP_cons_of_neg (by decide), e.eraseP_words_append]
    exact reads_group (ih (position + 1) (settled_openGroup c _ position))
  | factorial e ih =>
    rw [Expression.words, e.eraseP_words_append, Expression.postorder,
      List.tail_append_of_ne_nil e.postorder_ne_nil]
    exact reads_factorial hc (ih position hc)
  | binary op left right ihl _ =>
    rw [level_tier] at hc ihl ⊢
    rw [Expression.words, left.eraseP_words_append, Expression.postorder, List.append_assoc,
      List.tail_append_of_ne_nil left.postorder_ne_nil, ← List.append_assoc]
    refine reads_binary op hc (ihl position hc) ?_
    intro next position hnext
    rw [← level_tighter] at hnext ⊢
    exact reads_words right position hnext
  | ofProduct e ih => exact (ih position (hc.mono (by decide))).mono (by decide)
  | ofPower e ih => exact (ih position (hc.mono (by decide))).mono (by decide)
  | ofAtom e ih => exact (ih position (hc.mono (by decide))).mono (by decide)

/-! ## Running without the first number -/

/-- What a run has ended with has the value as its only entry, or the run has stopped
with the error of the value. -/
def Leaves (ending : Except EvaluationError OperandStack) : Except DomainError Float → Prop
  | .ok x => ∃ s, ending = .ok s ∧ s.entries = [x]
  | .error d => ending = .error (.domain d)

/-- **If the first number is zero, the implicit zero takes its place.** -/
theorem leaves_run_tail (e : Expression t) (hzero : e.first.value = 0) :
    Leaves (run {} e.postorder.tail) e.value := by
  induction e with
  | number n =>
    have hvalue : n.value = 0 := hzero
    rw [Expression.value, hvalue]
    exact ⟨{}, rfl, rfl⟩
  | group e ih => exact ih hzero
  | factorial e ih =>
    have hrun := ih hzero
    rw [Expression.postorder, List.tail_append_of_ne_nil e.postorder_ne_nil, run_append,
      Expression.value]
    cases hx : e.value with
    | error d =>
      rw [hx] at hrun
      have hstopped : run {} e.postorder.tail = .error (.domain d) := hrun
      rw [hstopped]
      rfl
    | ok x =>
      rw [hx] at hrun
      obtain ⟨s, hs, hentries⟩ := hrun
      obtain ⟨next, hnext, -, hstep⟩ := OperandStack.step_factorial_of_entries hentries
      rw [hs]
      show Leaves (run s [.operator .factorial]) (Arithmetic.factorial x)
      rw [run_cons, hstep]
      cases Arithmetic.factorial x with
      | error d => rfl
      | ok z => exact ⟨next.push z, rfl, by rw [OperandStack.entries_push, hnext]⟩
  | binary op left right ihl _ =>
    have hrun := ihl hzero
    rw [Expression.postorder, List.append_assoc, List.tail_append_of_ne_nil left.postorder_ne_nil,
      run_append, Expression.value]
    cases hx : left.value with
    | error d =>
      rw [hx] at hrun
      have hstopped : run {} left.postorder.tail = .error (.domain d) := hrun
      rw [hstopped]
      rfl
    | ok x =>
      rw [hx] at hrun
      obtain ⟨s, hs, hentries⟩ := hrun
      rw [hs]
      show Leaves (run s (right.postorder ++ [.operator (.binary op)]))
        (right.value >>= fun y => Expression.primitive op x y)
      rw [run_append, run_postorder]
      cases right.value with
      | error d => rfl
      | ok y =>
        have htwo : (s.push y).entries = [y, x] := by
          rw [OperandStack.entries_push, hentries]
        obtain ⟨next, hnext, -, hstep⟩ := OperandStack.step_binary_of_entries htwo op
        show Leaves (run (s.push y) [.operator (.binary op)]) (Expression.primitive op x y)
        rw [run_cons, hstep, primitive_eq_binary]
        cases Arithmetic.binary op x y with
        | error d => rfl
        | ok z => exact ⟨next.push z, rfl, by rw [OperandStack.entries_push, hnext]⟩
  | ofProduct e ih => exact ih hzero
  | ofPower e ih => exact ih hzero
  | ofAtom e ih => exact ih hzero

/-- A single entry is the result, whether it is a value or the implicit zero. -/
theorem finish_of_entries {s : OperandStack} {x : Float} (h : s.entries = [x]) :
    s.finish = .ok x := by
  obtain ⟨values, implicitZero⟩ := s
  match values, implicitZero with
  | [], true =>
    cases h
    rfl
  | [], false => cases h
  | [_], false =>
    cases h
    rfl
  | _ :: _, true => simp [OperandStack.entries] at h
  | _ :: _ :: _, false => cases h

/-- The post-order without a zero in front has the value of the whole. -/
theorem evaluate_tail_postorder (e : Expression t) (hzero : e.first.value = 0) :
    ReversePolish.evaluate e.postorder.tail = ReversePolish.evaluate e.postorder := by
  have hrun := leaves_run_tail e hzero
  rw [evaluate_postorder, ReversePolish.evaluate]
  cases hx : e.value with
  | error d =>
    rw [hx] at hrun
    have hstopped : run {} e.postorder.tail = .error (.domain d) := hrun
    rw [hstopped]
  | ok x =>
    rw [hx] at hrun
    obtain ⟨s, hs, hentries⟩ := hrun
    simp only [hs, finish_of_entries hentries]
    rfl

/-! ## Texts -/

/-- **A zero in front of an expression can be left out**, in whatever parentheses it
stands: without the word of this zero a text has the same value, or the same error. -/
theorem evaluate_of_words_eq_eraseP (e : Expression .sum) {text shorter : String}
    {word : List Char} (htext : Text.words text.toList = e.words)
    (hfirst : e.words.find? Token.isNumeral = some word)
    (hzero : Token.ofWord? word = some (.number 0))
    (hshorter : Text.words shorter.toList = e.words.eraseP Token.isNumeral) :
    evaluate shorter = evaluate text := by
  have hvalue : e.first.value = 0 := by
    rw [e.find?_words] at hfirst
    cases hfirst
    rw [e.first.ofWord?_word] at hzero
    simpa using hzero
  have hread : ofWords (e.words.eraseP Token.isNumeral) = .ok e.postorder.tail :=
    ofWords_of_reads (reads_eraseP e 0 rfl)
  rw [evaluate, evaluate, evaluateChars, evaluateChars, ofChars, ofChars, hshorter, hread, htext,
    ofWords_words]
  show (ReversePolish.evaluate e.postorder.tail).mapError _ = _
  rw [evaluate_tail_postorder e hvalue]

/-- The zero stands in two groups, and the difference that it is taken for is rejected
by the factorial. -/
theorem evaluate_without_zero_in_groups :
    Text.words "( ( 0 ) - 5 ) !".toList =
        [['('], ['('], ['0'], [')'], ['-'], ['5'], [')'], ['!']] ∧
      Text.words "( ( ) - 5 ) !".toList = [['('], ['('], [')'], ['-'], ['5'], [')'], ['!']] ∧
      evaluate "( ( ) - 5 ) !" = evaluate "( ( 0 ) - 5 ) !" := by
  let zero : Numeral := ⟨['0'], 0, by decide +kernel⟩
  let five : Numeral := ⟨['5'], 5, by decide +kernel⟩
  let inner : Expression .atom := .group (.ofProduct (.ofPower (.ofAtom (.number zero))))
  let difference : Expression .sum :=
    .binary .subtract (.ofProduct (.ofPower (.ofAtom inner))) (.ofPower (.ofAtom (.number five)))
  let e : Expression .sum := .ofProduct (.ofPower (.factorial (.ofAtom (.group difference))))
  have htext : Text.words "( ( 0 ) - 5 ) !".toList = e.words := by decide +kernel
  have hshorter : Text.words "( ( ) - 5 ) !".toList = e.words.eraseP Token.isNumeral := by
    decide +kernel
  have hfirst : e.words.find? Token.isNumeral = some ['0'] := by decide +kernel
  exact ⟨htext, hshorter.trans (by decide +kernel),
    evaluate_of_words_eq_eraseP e htext hfirst zero.ofWord?_word hshorter⟩

end Infix
end DeskCalculator
