/-!
# Operators

Seven operators stand between two operands; the factorial stands after its only
one.  In `2 √ 25` the left operand is the degree and the right one the radicand.
-/

namespace DeskCalculator

/-- An operator with a left and a right operand. -/
inductive BinaryOperator where
  /-- The sum. -/
  | add
  /-- The difference. -/
  | subtract
  /-- The product. -/
  | multiply
  /-- The quotient. -/
  | divide
  /-- The floored remainder. -/
  | modulo
  /-- The left operand to the power of the right one. -/
  | power
  /-- The root of the right operand, its degree being the left one. -/
  | root
  deriving DecidableEq, Repr

/-- An operator of the calculator. -/
inductive Operator where
  /-- An operator between two operands. -/
  | binary (op : BinaryOperator)
  /-- The factorial of the operand before it. -/
  | factorial
  deriving DecidableEq, Repr

/-- The character that denotes a binary operator. -/
def BinaryOperator.symbol : BinaryOperator → Char
  | .add => '+'
  | .subtract => '-'
  | .multiply => '*'
  | .divide => '/'
  | .modulo => '%'
  | .power => '^'
  | .root => '√'

/-- How tightly a binary operator binds. -/
def BinaryOperator.precedence : BinaryOperator → Nat
  | .add | .subtract => 1
  | .multiply | .divide | .modulo => 2
  | .power | .root => 3

namespace Operator

/-- All operators. -/
def all : List Operator :=
  [.binary .add, .binary .subtract, .binary .multiply, .binary .divide, .binary .modulo,
   .binary .power, .binary .root, .factorial]

/-- The character that denotes an operator. -/
def symbol : Operator → Char
  | .binary op => op.symbol
  | .factorial => '!'

/-- How tightly an operator binds.  The factorial binds like a power, and
operators that bind equally are taken from the left. -/
def precedence : Operator → Nat
  | .binary op => op.precedence
  | .factorial => 3

/-- The operator denoted by a character. -/
def ofSymbol? (c : Char) : Option Operator :=
  all.find? fun op => op.symbol == c

/-- Does the operator take a single operand? -/
def isUnary : Operator → Bool
  | .binary _ => false
  | .factorial => true

/-! ## Symbols and operators correspond -/

theorem mem_all (op : Operator) : op ∈ all := by
  rcases op with ⟨op⟩ | _ <;> try cases op <;> decide
  decide

theorem ofSymbol?_symbol (op : Operator) : ofSymbol? op.symbol = some op := by
  rcases op with ⟨op⟩ | _ <;> try cases op <;> decide
  decide

theorem symbol_of_ofSymbol? {c : Char} {op : Operator} (h : ofSymbol? c = some op) :
    op.symbol = c := by
  simpa using List.find?_some h

end Operator
end DeskCalculator
