import DeskCalculator.Decimal.Literal
import DeskCalculator.Error

/-!
# Tokens

A word of an expression is a number, an operator or a parenthesis, and it is one
of them as a whole: `(3` and `1.2.3` are none.
-/

namespace DeskCalculator

/-- What a word of an expression stands for. -/
inductive Token where
  /-- A number. -/
  | number (value : Float)
  /-- An operator. -/
  | operator (op : Operator)
  /-- An opening parenthesis. -/
  | leftParenthesis
  /-- A closing parenthesis. -/
  | rightParenthesis
  deriving DecidableEq, Repr

namespace Token

/-- The operator or parenthesis that a character denotes. -/
def ofSymbol? (c : Char) : Option Token :=
  if c = '(' then some .leftParenthesis
  else if c = ')' then some .rightParenthesis
  else (Operator.ofSymbol? c).map .operator

/-- The token that a word stands for. -/
def ofWord? (word : List Char) : Option Token :=
  match Decimal.Literal.ofText? word with
  | some l => some (.number l.value)
  | none =>
    match word with
    | [c] => ofSymbol? c
    | _ => none

/-- The token that the word at a position stands for. -/
def read (word : List Char) (position : Nat) : Except ParseError Token :=
  match ofWord? word with
  | some token => .ok token
  | none => .error (.malformedToken (String.ofList word) position)

/-- The text of a token. -/
def chars : Token → List Char
  | .number x => Decimal.chars x
  | .operator op => [op.symbol]
  | .leftParenthesis => ['(']
  | .rightParenthesis => [')']

/-- The text of a token, as a string. -/
def text (t : Token) : String :=
  String.ofList t.chars

end Token
end DeskCalculator
