import DeskCalculator.Text
import DeskCalculator.Token

/-!
# Conversion to reverse Polish order

A conversion reads the tokens of an infix expression and writes them in reverse
Polish order.  Numbers are written at once.  Operators wait on a stack until an
operator that does not bind tighter, the end of their group or the end of the
text releases them, so operators that bind equally are taken from the left.

Closing a group and finishing can fail.  A step that fails still returns the
conversion that it leaves, with everything written that it has released.

`ofText` converts a whole expression into the sequence of its numbers and operators
in which each operator follows its operands.  It checks words and parentheses only: a
missing operand is found when the sequence is evaluated.
-/

namespace DeskCalculator
namespace ReversePolish

/-- An entry that waits for its end. -/
inductive Pending where
  /-- An open group and the position of its parenthesis. -/
  | group (position : Nat)
  /-- An operator whose right operand may not be complete. -/
  | operator (op : Operator)
  deriving DecidableEq, Repr

/-- The operators at the top of a stack that bind at least as tightly as
`precedence`, and the stack below them.  An open group ends them. -/
def release (precedence : Nat) : List Pending → List Operator × List Pending
  | .operator op :: rest =>
    if precedence ≤ op.precedence then
      let (released, kept) := release precedence rest
      (op :: released, kept)
    else ([], .operator op :: rest)
  | stack => ([], stack)

/-- The operators above the topmost open group, and that group's position with
the stack below it, if any group is open. -/
def releaseGroup : List Pending → List Operator × Option (Nat × List Pending)
  | [] => ([], none)
  | .group position :: rest => ([], some (position, rest))
  | .operator op :: rest =>
    let (released, found) := releaseGroup rest
    (op :: released, found)

/-- A conversion: what waits, and what has been written. -/
structure Conversion where
  /-- The entries that wait, the top first. -/
  pending : List Pending := []
  /-- The tokens written so far, the last one first. -/
  written : List Token := []
  deriving DecidableEq, Repr

namespace Conversion

/-- The tokens written so far, in order. -/
def output (c : Conversion) : List Token :=
  c.written.reverse

/-- Write operators that are released, and wait with the entries that are kept. -/
def write (c : Conversion) (released : List Operator) (kept : List Pending) : Conversion :=
  { pending := kept, written := (released.map .operator).reverse ++ c.written }

/-! ## Steps -/

/-- A number is written at once. -/
def number (c : Conversion) (x : Float) : Conversion :=
  { c with written := .number x :: c.written }

/-- A group opens at a position. -/
def openGroup (c : Conversion) (position : Nat) : Conversion :=
  { c with pending := .group position :: c.pending }

/-- An operator releases those that bind at least as tightly, and waits. -/
def operator (c : Conversion) (op : Operator) : Conversion :=
  let (released, kept) := release op.precedence c.pending
  c.write released (.operator op :: kept)

/-- The innermost group closes, at a position.  If no group is open, everything
is written and nothing waits any more. -/
def closeGroup (c : Conversion) (position : Nat) : Except ParseError Unit × Conversion :=
  match releaseGroup c.pending with
  | (released, some (_, rest)) => (.ok (), c.write released rest)
  | (released, none) => (.error (.unbalancedParenthesis position), c.write released [])

/-- At the end everything that waits is written, up to the innermost group that
is still open. -/
def finish (c : Conversion) : Except ParseError Unit × Conversion :=
  match releaseGroup c.pending with
  | (released, none) => (.ok (), c.write released [])
  | (released, some (position, _)) =>
    (.error (.unbalancedParenthesis position), c.write released [])

/-! ## What a step writes -/

@[simp] theorem output_write (c : Conversion) (released : List Operator) (kept : List Pending) :
    (c.write released kept).output = c.output ++ released.map .operator := by
  simp [output, write]

@[simp] theorem output_number (c : Conversion) (x : Float) :
    (c.number x).output = c.output ++ [.number x] := by
  simp [output, number]

@[simp] theorem output_openGroup (c : Conversion) (position : Nat) :
    (c.openGroup position).output = c.output := rfl

/-! ## Reading tokens and words -/

/-- The conversion after the token at a position. -/
def token (c : Conversion) (position : Nat) : Token → Except ParseError Conversion
  | .number x => .ok (c.number x)
  | .operator op => .ok (c.operator op)
  | .leftParenthesis => .ok (c.openGroup position)
  | .rightParenthesis =>
    match c.closeGroup position with
    | (.ok (), next) => .ok next
    | (.error e, _) => .error e

/-- The conversion after words, the first of which has the given position. -/
def words (c : Conversion) (position : Nat) : List (List Char) → Except ParseError Conversion
  | [] => .ok c
  | word :: later =>
    match Token.read word position with
    | .error e => .error e
    | .ok t =>
      match c.token position t with
      | .error e => .error e
      | .ok next => next.words (position + 1) later

end Conversion

/-! ## Whole expressions -/

/-- The sequence of an expression given as words. -/
def ofWords (words : List (List Char)) : Except ParseError (List Token) :=
  match ({} : Conversion).words 0 words with
  | .error e => .error e
  | .ok c =>
    match c.finish with
    | (.ok (), last) => .ok last.output
    | (.error e, _) => .error e

/-- The sequence of an expression. -/
def ofChars (text : List Char) : Except ParseError (List Token) :=
  ofWords (Text.words text)

/-- The sequence of an expression given as a string. -/
def ofText (text : String) : Except ParseError (List Token) :=
  ofChars text.toList

/-- The text of a sequence: its tokens separated by single spaces. -/
def chars (tokens : List Token) : List Char :=
  [' '].intercalate (tokens.map Token.chars)

/-- The text of a sequence, as a string. -/
def text (tokens : List Token) : String :=
  String.ofList (chars tokens)

end ReversePolish
end DeskCalculator
