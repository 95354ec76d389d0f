import DeskCalculator.Operator
import DeskCalculator.Decimal.Positional

/-!
# Errors

Each phase fails for causes of its own: reading a text (`ParseError`), applying
an operator to numbers (`DomainError`) and reducing a whole sequence to one
value (`EvaluationError`).  `CalculationError` joins them.  The wording is in
the functions named `message`.
-/

namespace DeskCalculator

/-- Why a text is not an expression.  A position counts the words before it. -/
inductive ParseError where
  /-- A word is neither a number nor an operator nor a parenthesis. -/
  | malformedToken (word : String) (position : Nat)
  /-- A parenthesis has no partner. -/
  | unbalancedParenthesis (position : Nat)
  deriving DecidableEq, Repr

/-- Why an operator rejects its operands. -/
inductive DomainError where
  /-- A division or remainder by zero. -/
  | divisionByZero (operator : BinaryOperator) (dividend : Float)
  /-- A power with a negative or fractional exponent, or a root of degree zero. -/
  | invalidExponent (operator : BinaryOperator) (exponent : Float)
  /-- The factorial of a negative or fractional number. -/
  | invalidFactorialOperand (operand : Float)
  deriving DecidableEq, Repr

/-- Why a sequence of tokens has no value. -/
inductive EvaluationError where
  /-- An operator met fewer operands than it takes. -/
  | missingOperand (operator : Operator)
  /-- The number of values at the end is not one. -/
  | malformedExpression (remaining : Nat)
  /-- An operator rejects its operands. -/
  | domain (error : DomainError)
  deriving DecidableEq, Repr

/-- Why a text has no value. -/
inductive CalculationError where
  /-- The text is not an expression. -/
  | parse (error : ParseError)
  /-- The expression has no value. -/
  | evaluation (error : EvaluationError)
  deriving DecidableEq, Repr

/-! ## Messages -/

/-- The message of a parse error. -/
def ParseError.message : ParseError → String
  | .malformedToken word position =>
    s!"Error at token {position}: '" ++ word ++ "' is not a number or an operator."
  | .unbalancedParenthesis position =>
    s!"Error at token {position}: Unbalanced parenthesis."

/-- The message of a domain error.  A divisor of zero is written without its sign. -/
def DomainError.message : DomainError → String
  | .divisionByZero operator dividend =>
    "Division by zero: " ++ Decimal.text dividend ++ s!" {operator.symbol} 0."
  | .invalidExponent operator exponent =>
    "Invalid exponent " ++ Decimal.text exponent ++ s!" for '{operator.symbol}'."
  | .invalidFactorialOperand operand =>
    "Factorial is only defined for non-negative integers, but found " ++
      Decimal.text operand ++ "."

/-- The message of an evaluation error. -/
def EvaluationError.message : EvaluationError → String
  | .missingOperand operator => s!"Operator '{operator.symbol}' is missing an operand."
  | .malformedExpression remaining =>
    s!"Expression is malformed: {remaining} values left after evaluation, expected 1."
  | .domain error => error.message

/-- The message of a calculation error. -/
def CalculationError.message : CalculationError → String
  | .parse error => error.message
  | .evaluation error => error.message

end DeskCalculator
