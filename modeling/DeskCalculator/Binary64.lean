/-!
# Doubles as exact numbers

A finite double is a sign, a mantissa and a power of two, so it has an exact
rational value.  This file reads that value where it is an integer
(`integer?`, `natural?`, `int64?`) and goes the other way: `nearest` is the
double nearest to a ratio of natural numbers, a tie going to the even
mantissa.  What is known as an exact number, such as a decimal literal or a
truncated remainder, is passed through `nearest`.
-/

namespace DeskCalculator
namespace Binary64

open Float.Model (UnpackedFloat)
open Float.Model.UnpackedFloat (Sign)

-- powers of natural numbers are those of the core library, here and in every module that
-- imports this one, whatever else it imports
attribute [instance (high)] instPowNat

/-! ## Exact values -/

/-- The class of a double, with sign, mantissa and exponent where it is finite. -/
def parts (x : Float) : UnpackedFloat :=
  x.toModel.unpack

/-- The double with the given parts. -/
def ofParts (p : UnpackedFloat) : Float :=
  .ofModel (.pack p)

/-- The exact value of a double, if that value is an integer. -/
def integer? (x : Float) : Option Int :=
  match parts x with
  | .zero _ => some 0
  | .finite s m e _ =>
    if 0 ≤ e then some (s.apply (m * 2 ^ e.toNat : Nat))
    else if m % 2 ^ (-e).toNat = 0 then some (s.apply (m / 2 ^ (-e).toNat : Nat))
    else none
  | _ => none

/-- The exact value of a double, if that value is a natural number. -/
def natural? (x : Float) : Option Nat :=
  match integer? x with
  | some (.ofNat n) => some n
  | _ => none

/-- The exact value of a double, if that value is an integer of 64 bits. -/
def int64? (x : Float) : Option Int64 :=
  match integer? x with
  | some n => if -2 ^ (63 : Nat) ≤ n ∧ n < 2 ^ (63 : Nat) then some (.ofInt n) else none
  | none => none

/-! ## Rounding a ratio -/

/-- The natural number nearest to `num / den`, a half going to the even neighbour. -/
def roundHalfEven (num den : Nat) : Nat :=
  let quotient := num / den
  let twiceRest := 2 * (num % den)
  if twiceRest < den then quotient
  else if den < twiceRest then quotient + 1
  else quotient + quotient % 2

/-- The exponent of the greatest power of two that is at most `num / den`.  The
lengths of the two numbers determine it up to one. -/
def log2Ratio (num den : Nat) : Int :=
  let guess : Int := num.log2 - den.log2
  if den * 2 ^ guess.toNat ≤ num * 2 ^ (-guess).toNat then guess else guess - 1

/-- The exponent of the last bit that a double near `num / den` has: the
mantissa keeps 53 bits, and no bit lies below `2 ^ -1074`. -/
def lastBit (num den : Nat) : Int :=
  max (log2Ratio num den - 52) (-1074)

/-- The double nearest to `num / den` with the given sign, a tie going to the
even mantissa.  A mantissa that is rounded up to `2 ^ 53` moves to the next
exponent, and an exponent that is too large gives an infinity. -/
def nearest (sign : Sign) (num den : Nat) : Float :=
  let e := lastBit num den
  let m := roundHalfEven (num * 2 ^ (-e).toNat) (den * 2 ^ e.toNat)
  if h : m = 0 then ofParts (.zero sign)
  else if m = 2 ^ (53 : Nat) then
    ofParts (.finite sign (2 ^ (52 : Nat)) (e + 1) (by decide))
  else ofParts (.finite sign m e (Nat.pos_of_ne_zero h))

/-- The double nearest to `m * 10 ^ e` with the given sign.  A value of at least
`10 ^ 309` is an infinity and one below `2 ^ -1076` a zero, which is settled
without computing the power of ten. -/
def nearestDecimal (sign : Sign) (m : Nat) (e : Int) : Float :=
  if m = 0 then ofParts (.zero sign)
  else if 309 ≤ e then ofParts (.infinity sign)
  else if m.log2 + 1077 ≤ 3 * -e then ofParts (.zero sign)
  else nearest sign (m * 10 ^ e.toNat) (10 ^ (-e).toNat)

end Binary64
end DeskCalculator
