import DeskCalculator.Arithmetic
import DeskCalculator.Decimal.Literal
import DeskCalculator.Text

/-!
# Sample standard deviation

The deviation of `N` values is `√((Σx² - N·mean²) / (N - 1))`, computed with the
operators of the calculator from the running sums of the values and of their
squares.
-/

namespace DeskCalculator
namespace Deviation

/-! ## Reading values -/

/-- The numbers that words write, the first of which has the given position. -/
def valuesFrom (position : Nat) : List (List Char) → Except ParseError (List Float)
  | [] => .ok []
  | word :: later =>
    match Decimal.read? word with
    | none => .error (.malformedToken (String.ofList word) position)
    | some x => (valuesFrom (position + 1) later).map (x :: ·)

/-- The numbers in a text, separated by blanks. -/
def valuesOfChars (text : List Char) : Except ParseError (List Float) :=
  valuesFrom 0 (Text.words text)

/-- The numbers in a string, separated by blanks. -/
def values (text : String) : Except ParseError (List Float) :=
  valuesOfChars text.toList

/-! ## Computing -/

/-- The sums over the values read so far. -/
structure Sums where
  /-- The number of values. -/
  count : Float := 0
  /-- The sum of the values. -/
  total : Float := 0
  /-- The sum of the squares. -/
  squares : Float := 0
  deriving DecidableEq

section
variable (pow : Float → Float → Float)

/-- The sums with one more value. -/
def Sums.add (s : Sums) (x : Float) : Except DomainError Sums := do
  let square ← Arithmetic.powerWith pow x 2
  return { count := s.count + 1, total := s.total + x, squares := s.squares + square }

/-- The deviation of a sample with the given sums. -/
def Sums.deviation (s : Sums) : Except DomainError Float := do
  let mean ← Arithmetic.divide s.total s.count
  let meanSquare ← Arithmetic.powerWith pow mean 2
  let variance ← Arithmetic.divide (s.squares - s.count * meanSquare) (s.count - 1)
  Arithmetic.rootWith pow variance 2

/-- The sample standard deviation over a given power function.  No value at all
has the deviation zero. -/
def sampleWith (values : List Float) : Except DomainError Float :=
  if values.isEmpty then .ok 0
  else do
    let sums ← values.foldlM (Sums.add pow) {}
    sums.deviation pow

end

/-- The sample standard deviation. -/
def sample (values : List Float) : Except DomainError Float :=
  sampleWith Float.pow values

end Deviation
end DeskCalculator
