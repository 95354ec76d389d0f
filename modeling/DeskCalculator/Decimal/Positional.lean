import DeskCalculator.Decimal.Shortest

/-!
# Positional notation

A double is written with the digits of its shortest decimal, never with an
exponent: zeros fill the places between the digits and the point, and a whole
number has no point.
-/

namespace DeskCalculator
namespace Decimal

open Float.Model.UnpackedFloat (Sign)

/-- The text of a sign in front of a number. -/
def signChars : Sign → List Char
  | .negative => ['-']
  | .positive => []

/-- A digit text with a point before its last `places` digits.  Zeros in front
make up for missing digits, so that one digit stands before the point. -/
def insertPoint (digits : List Char) (places : Nat) : List Char :=
  let padded := List.replicate (places + 1 - digits.length) '0' ++ digits
  let whole := padded.length - places
  padded.take whole ++ '.' :: padded.drop whole

/-- The positional text of a decimal. -/
def Scaled.chars (d : Scaled) : List Char :=
  let digits := Nat.toDigits 10 d.digits
  signChars d.sign ++
    if 0 ≤ d.exponent then digits ++ List.replicate d.exponent.toNat '0'
    else insertPoint digits (-d.exponent).toNat

/-- The text of a double.  Zero keeps its sign, and what is not a number has none. -/
def chars (x : Float) : List Char :=
  match Binary64.parts x with
  | .notANumber => "NaN".toList
  | .infinity sign => signChars sign ++ "inf".toList
  | .zero sign => signChars sign ++ ['0']
  | .finite sign m e _ => (shortest x sign m e).chars

/-- The text of a double, as a string. -/
def text (x : Float) : String :=
  String.ofList (chars x)

/-! ### What the format decides -/

example : chars 1e21 = "1000000000000000000000".toList := by decide +kernel

example : chars 1e-7 = "0.0000001".toList := by decide +kernel

example : chars (-0.0) = "-0".toList := by decide +kernel

example : chars 1000000000000000.25 = "1000000000000000.3".toList := by decide +kernel

/-! ## Integers -/

/-- The text of an integer. -/
def integerChars (n : Int) : List Char :=
  signChars (if n < 0 then .negative else .positive) ++ Nat.toDigits 10 n.natAbs

end Decimal
end DeskCalculator
