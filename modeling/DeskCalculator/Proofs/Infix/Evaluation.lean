import DeskCalculator.Proofs.Infix.Conversion
import DeskCalculator.Proofs.ReversePolish.Running

/-!
# Values of infix expressions

Running the post-order of an expression puts its value on top of the stack and
leaves everything below alone, the implicit zero included, or stops with the error
of the expression (`run_postorder`).  So the text of an infix expression evaluates
to the value of the expression, and it fails only where an operator rejects its
operands (`evaluate_of_joined`).
-/

namespace DeskCalculator
namespace Infix

open ReversePolish

/-! ## Running an expression -/

theorem primitive_eq_binary (op : BinaryOperator) :
    Expression.primitive op = Arithmetic.binary op := by
  cases op <;> rfl

/-- What a run on a stack ends with, given the value that it puts on top. -/
def outcome (s : OperandStack) : Except DomainError Float → Except EvaluationError OperandStack
  | .ok x => .ok (s.push x)
  | .error d => .error (.domain d)

/-- **Running the post-order of an expression puts its value on top.** -/
theorem run_postorder {t : Tier} (e : Expression t) (s : OperandStack) :
    run s e.postorder = outcome s e.value := by
  induction e generalizing s with
  | number n => rfl
  | group e ih => exact ih s
  | factorial e ih =>
    rw [Expression.postorder, run_append, ih, Expression.value]
    cases e.value with
    | error d => rfl
    | ok x =>
      show run (s.push x) [.operator .factorial] = outcome s (Arithmetic.factorial x)
      rw [run_cons, step_factorial]
      cases Arithmetic.factorial x <;> rfl
  | binary op left right ihl ihr =>
    rw [Expression.postorder, run_append, run_append, ihl, Expression.value]
    cases left.value with
    | error d => rfl
    | ok x =>
      show (run (s.push x) right.postorder).bind _ = _
      rw [ihr]
      cases right.value with
      | error d => rfl
      | ok y =>
        show run ((s.push x).push y) [.operator (.binary op)] =
          outcome s (Expression.primitive op x y)
        rw [run_cons, step_binary, primitive_eq_binary]
        cases Arithmetic.binary op x y <;> rfl
  | ofProduct e ih => exact ih s
  | ofPower e ih => exact ih s
  | ofAtom e ih => exact ih s

/-- The post-order of an expression has its value, normalized. -/
theorem evaluate_postorder {t : Tier} (e : Expression t) :
    ReversePolish.evaluate e.postorder =
      match e.value with
      | .ok x => .ok (Number.normalize x)
      | .error d => .error (.domain d) := by
  rw [ReversePolish.evaluate, run_postorder]
  cases e.value <;> rfl

/-- **A text that joins an infix expression evaluates to its value**, normalized
once.  If there is none, the error is that of the first operator in post-order
that rejects its operands. -/
theorem evaluate_of_joined (e : Expression .sum) {text : String}
    (h : Text.Joined e.words text.toList) :
    (evaluate text =
      match e.value with
      | .ok x => .ok (Number.normalize x)
      | .error d => .error (.evaluation (.domain d))) ∧
      ∀ d, e.value = .error d ↔ e.firstRejection? = some d := by
  refine ⟨?_, fun d => Expression.value_eq_error_iff⟩
  rw [evaluate, evaluateChars, ReversePolish.ofChars, words_of_joined_expression e h,
    ofWords_words]
  show (ReversePolish.evaluate e.postorder).mapError CalculationError.evaluation = _
  rw [evaluate_postorder]
  cases e.value <;> rfl

/-- The quotient fails before the power, whose exponent is as bad as its divisor. -/
theorem evaluate_first_of_two_failures :
    Text.Joined [['3'], ['/'], ['0'], ['+'], ['2'], ['^'], ['-', '1']] "3 / 0 + 2 ^ -1".toList ∧
      evaluate "3 / 0 + 2 ^ -1" = .error (.evaluation (.domain (.divisionByZero .divide 3))) := by
  let zero : Numeral := ⟨['0'], 0, by decide +kernel⟩
  let two : Numeral := ⟨['2'], 2, by decide +kernel⟩
  let three : Numeral := ⟨['3'], 3, by decide +kernel⟩
  let minusOne : Numeral := ⟨['-', '1'], -1, by decide +kernel⟩
  let quotient : Expression .product :=
    .binary .divide (.ofPower (.ofAtom (.number three))) (.ofAtom (.number zero))
  let power : Expression .power := .binary .power (.ofAtom (.number two)) (.number minusOne)
  let e : Expression .sum := .binary .add (.ofProduct quotient) (.ofPower power)
  have htext : "3 / 0 + 2 ^ -1".toList =
      ['3', ' ', '/', ' ', '0', ' ', '+', ' ', '2', ' ', '^', ' ', '-', '1'] := by
    decide +kernel
  have hjoined : Text.Joined e.words "3 / 0 + 2 ^ -1".toList := by
    have hgap : ∀ c ∈ [' '], Text.isBlank c = true := List.all_eq_true.1 rfl
    rw [htext]
    refine .cons ['3'] (by decide) hgap ?_
    refine .cons ['/'] (by decide) hgap ?_
    refine .cons ['0'] (by decide) hgap ?_
    refine .cons ['+'] (by decide) hgap ?_
    refine .cons ['2'] (by decide) hgap ?_
    exact .cons ['^'] (by decide) hgap (.single ['-', '1'])
  have hzero : ((0 : Float) == 0) = true := by decide +kernel
  have hquotient : quotient.value = .error (.divisionByZero .divide 3) := if_pos hzero
  have hvalue : e.value = .error (.divisionByZero .divide 3) := by
    show (quotient.value >>= _) = _
    rw [hquotient]
    rfl
  obtain ⟨hevaluate, -⟩ := evaluate_of_joined e hjoined
  rw [hvalue] at hevaluate
  exact ⟨hjoined, hevaluate⟩

end Infix
end DeskCalculator
