import DeskCalculator.Binary64

/-!
# Decimal literals

A literal is an optional sign, digits around an optional point and an optional
exponent, such as `42`, `-2.`, `+.5` or `2e-10`; there is at least one digit
beside the point and one in the exponent.  Its value is the nearest double.
-/

namespace DeskCalculator
namespace Decimal

open Float.Model.UnpackedFloat (Sign)

/-- A decimal literal: `whole.fraction` times ten to the power `exponent`. -/
structure Literal where
  /-- The sign in front. -/
  sign : Sign
  /-- The digits before the point. -/
  whole : List Char
  /-- The digits after the point. -/
  fraction : List Char
  /-- The power of ten. -/
  exponent : Int

namespace Literal

/-- The double nearest to the literal; a negative zero keeps its sign. -/
def value (l : Literal) : Float :=
  Binary64.nearestDecimal l.sign (Nat.ofDigitChars 10 (l.whole ++ l.fraction) 0)
    (l.exponent - l.fraction.length)

/-! ## Reading -/

/-- The sign in front of a text, positive if there is none, and the rest. -/
def takeSign : List Char → Sign × List Char
  | '-' :: rest => (.negative, rest)
  | '+' :: rest => (.positive, rest)
  | rest => (.positive, rest)

/-- The digits after the point at the start of a text, and the rest.  Without a
point there are none. -/
def takeFraction : List Char → List Char × List Char
  | '.' :: rest => (rest.takeWhile Char.isDigit, rest.dropWhile Char.isDigit)
  | rest => ([], rest)

/-- The exponent that a text writes: zero for the empty text, else `e` or `E`, an
optional sign and digits. -/
def exponent? : List Char → Option Int
  | [] => some 0
  | mark :: rest =>
    let (sign, digits) := takeSign rest
    if (mark == 'e' || mark == 'E') && !digits.isEmpty && digits.all Char.isDigit then
      some (sign.apply (Nat.ofDigitChars 10 digits 0 : Nat))
    else none

/-- The literal that a text writes, if the whole text is one. -/
def ofText? (text : List Char) : Option Literal :=
  let (sign, unsigned) := takeSign text
  let whole := unsigned.takeWhile Char.isDigit
  let (fraction, rest) := takeFraction (unsigned.dropWhile Char.isDigit)
  if whole.isEmpty && fraction.isEmpty then none
  else (exponent? rest).map fun exponent => { sign, whole, fraction, exponent }

end Literal

/-! ## Literals and names of special values -/

/-- The special value that a text names in any letter case. -/
def special? (sign : Sign) (name : List Char) : Option Float :=
  let lower := name.map Char.toLower
  if lower = "inf".toList || lower = "infinity".toList then
    some (Binary64.ofParts (.infinity sign))
  else if lower = "nan".toList then some (Binary64.ofParts .notANumber)
  else none

/-- The double that a text writes as a literal or as an optional sign and one of
the names `inf`, `infinity` and `nan`. -/
def read? (text : List Char) : Option Float :=
  match Literal.ofText? text with
  | some l => some l.value
  | none => special? (Literal.takeSign text).1 (Literal.takeSign text).2

end Decimal
end DeskCalculator
