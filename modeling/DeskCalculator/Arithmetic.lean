import DeskCalculator.Error

/-!
# Arithmetic of the operators

Sum, difference, product and quotient are those of doubles, rounded once.  The
remainder is floored: a truncated remainder, which is exact, is corrected by one
addition where its sign is not that of the divisor.  Powers take natural
exponents, roots any degree but zero, and factorials natural operands.

The power function of the mathematical library is a parameter of `powerWith` and
`rootWith`, so that a law can state what it needs of that function.
-/

namespace DeskCalculator
namespace Arithmetic

open Binary64 (parts ofParts natural? nearest)

/-! ## Quotient and remainder -/

/-- The quotient of two doubles. -/
def divide (a b : Float) : Except DomainError Float :=
  if b == 0 then .error (.divisionByZero .divide a) else .ok (a / b)

/-- The remainder of a division whose quotient drops its fraction.  It is exact, and
has the sign of `a` even if it is zero.  An infinite divisor leaves `a` as it is. -/
def truncatedRemainder (a b : Float) : Float :=
  match parts a, parts b with
  | .zero _, .finite .. | .zero _, .infinity _ | .finite .., .infinity _ => a
  | .finite s m e _, .finite _ n f _ =>
    -- the two mantissas on the common scale of the operands
    let scale := min e f
    let rest := m * 2 ^ (e - scale).toNat % (n * 2 ^ (f - scale).toNat)
    nearest s (rest * 2 ^ scale.toNat) (2 ^ (-scale).toNat)
  | _, _ => ofParts .notANumber

/-- The remainder of two doubles, with the sign of the divisor.  A truncated remainder
of the other sign is corrected by adding the divisor. -/
def modulo (a b : Float) : Except DomainError Float :=
  if b == 0 then .error (.divisionByZero .modulo a)
  else
    let remainder := truncatedRemainder a b
    if remainder != 0 && decide (remainder < 0) != decide (b < 0) then .ok (remainder + b)
    else .ok remainder

/-! ## Powers and roots -/

/-- The power of `x` to a natural exponent. -/
def powerWith (pow : Float → Float → Float) (x n : Float) : Except DomainError Float :=
  if (natural? n).isSome then .ok (pow x n) else .error (.invalidExponent .power n)

/-- The root of `x` of degree `n`, as the power of `x` to the exponent `1 / n`. -/
def rootWith (pow : Float → Float → Float) (x n : Float) : Except DomainError Float :=
  if n == 0 then .error (.invalidExponent .root n) else .ok (pow x (1 / n))

/-- The power of `x` to a natural exponent. -/
def power (x n : Float) : Except DomainError Float :=
  powerWith Float.pow x n

/-- The root of `x` of degree `n`. -/
def root (x n : Float) : Except DomainError Float :=
  rootWith Float.pow x n

/-! ## Factorial -/

/-- The product of `result` with so many factors, each greater by one than the
one before.  An infinite product does not change any more and is left at once. -/
def productFrom : (factors : Nat) → (factor result : Float) → Float
  | 0, _, result => result
  | factors + 1, factor, result =>
    if result.isFinite then productFrom factors (factor + 1) (result * factor) else result

/-- The factorial of a natural number. -/
def factorial (a : Float) : Except DomainError Float :=
  match natural? a with
  | some n => .ok (productFrom (n - 1) 2 1)
  | none => .error (.invalidFactorialOperand a)

/-! ## Operators -/

/-- The value of a binary operator at its left and right operand. -/
def binary (op : BinaryOperator) (left right : Float) : Except DomainError Float :=
  match op with
  | .add => .ok (left + right)
  | .subtract => .ok (left - right)
  | .multiply => .ok (left * right)
  | .divide => divide left right
  | .modulo => modulo left right
  | .power => power left right
  | .root => root right left

end Arithmetic
end DeskCalculator
