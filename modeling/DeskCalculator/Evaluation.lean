import DeskCalculator.ReversePolish.Conversion
import DeskCalculator.ReversePolish.OperandStack

/-!
# Evaluation

A reverse Polish sequence is run on an operand stack.  `evaluate` converts a text
and runs the sequence it stands for.

Arithmetic is done on doubles.  Only a final result is normalized: a whole value
of 64 bits becomes an integer, and every other value stays a double.
-/

namespace DeskCalculator

/-! ## Results -/

/-- The result of an evaluation. -/
inductive Number where
  /-- A whole value of 64 bits. -/
  | integer (value : Int64)
  /-- Any other value. -/
  | real (value : Float)
  deriving DecidableEq

namespace Number

/-- The result that a double stands for. -/
def normalize (x : Float) : Number :=
  match Binary64.int64? x with
  | some n => .integer n
  | none => .real x

/-- The text of a result. -/
def chars : Number → List Char
  | .integer n => Decimal.integerChars n.toInt
  | .real x => Decimal.chars x

/-- The text of a result, as a string. -/
def text (n : Number) : String :=
  String.ofList n.chars

end Number

/-! ## Running a sequence -/

namespace ReversePolish

/-- Run one token.  Numbers go on the stack, operators are applied, and
parentheses have no effect. -/
def step (s : OperandStack) : Token → Except EvaluationError OperandStack
  | .number x => .ok (s.push x)
  | .operator op =>
    match s.apply op with
    | (.ok (), next) => .ok next
    | (.error e, _) => .error e
  | .leftParenthesis | .rightParenthesis => .ok s

/-- Run a sequence on a stack. -/
def run (s : OperandStack) : List Token → Except EvaluationError OperandStack
  | [] => .ok s
  | t :: later =>
    match step s t with
    | .ok next => run next later
    | .error e => .error e

/-- The value of a sequence. -/
def evaluate (tokens : List Token) : Except EvaluationError Number :=
  match run {} tokens with
  | .ok s => s.finish.map Number.normalize
  | .error e => .error e

end ReversePolish

/-! ## Expressions -/

/-- The value of an expression. -/
def evaluateChars (text : List Char) : Except CalculationError Number :=
  match ReversePolish.ofChars text with
  | .ok tokens => (ReversePolish.evaluate tokens).mapError .evaluation
  | .error e => .error (.parse e)

/-- The value of an expression given as a string. -/
def evaluate (text : String) : Except CalculationError Number :=
  evaluateChars text.toList

end DeskCalculator
