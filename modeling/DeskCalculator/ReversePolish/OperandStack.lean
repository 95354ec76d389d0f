import DeskCalculator.Arithmetic

/-!
# The operand stack

Below the values lies an implicit zero, which serves once as an operand: `- 5`
is `0 - 5`.  As long as it is unused it does not count as a value.  A step that
fails returns the stack that it leaves: operands it has taken stay taken.
-/

namespace DeskCalculator
namespace ReversePolish

/-- The values of a running evaluation. -/
structure OperandStack where
  /-- The values, the top first. -/
  values : List Float := []
  /-- Does the implicit zero still lie below the values? -/
  implicitZero : Bool := true
  deriving DecidableEq, Repr

namespace OperandStack

/-- Everything on the stack, an unused implicit zero included, the top first. -/
def entries (s : OperandStack) : List Float :=
  if s.implicitZero then s.values ++ [0] else s.values

/-- The number of values, not counting the implicit zero. -/
def length (s : OperandStack) : Nat :=
  s.values.length

/-- Is there no value? -/
def isEmpty (s : OperandStack) : Bool :=
  s.values.isEmpty

/-- Put a value on top. -/
def push (s : OperandStack) (x : Float) : OperandStack :=
  { s with values := x :: s.values }

/-- Take one operand for an operator: the top value, or else the implicit zero. -/
def pop (s : OperandStack) (op : Operator) : Except EvaluationError Float × OperandStack :=
  match s.values with
  | x :: rest => (.ok x, { s with values := rest })
  | [] =>
    if s.implicitZero then (.ok 0, { s with implicitZero := false })
    else (.error (.missingOperand op), s)

/-- Put the value of an operator on top, unless it rejected its operands. -/
def settle (s : OperandStack) :
    Except DomainError Float → Except EvaluationError Unit × OperandStack
  | .ok x => (.ok (), s.push x)
  | .error e => (.error (.domain e), s)

/-- Apply an operator to the topmost operands.  A binary operator takes its right
operand first. -/
def apply (s : OperandStack) (op : Operator) : Except EvaluationError Unit × OperandStack :=
  match s.pop op with
  | (.error e, rest) => (.error e, rest)
  | (.ok right, rest) =>
    match op with
    | .factorial => rest.settle (Arithmetic.factorial right)
    | .binary b =>
      match rest.pop op with
      | (.error e, last) => (.error e, last)
      | (.ok left, last) => last.settle (Arithmetic.binary b left right)

/-- The only value, or the implicit zero where nothing was ever put on the stack. -/
def finish (s : OperandStack) : Except EvaluationError Float :=
  match s.values with
  | [x] => .ok x
  | [] => if s.implicitZero then .ok 0 else .error (.malformedExpression 0)
  | values => .error (.malformedExpression values.length)

end OperandStack
end ReversePolish
end DeskCalculator
