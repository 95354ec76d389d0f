import DeskCalculator.Arithmetic
import DeskCalculator.Token

/-!
# Infix expressions

The derivations of the infix grammar, as a family over the tiers of the grammar:

* a sum is a product, or a sum, `+` or `-`, and a product;
* a product is a power, or a product, `*`, `/` or `%`, and a power;
* a power is an atom, or a power, `^` or `√`, and an atom, or a power and `!`;
* an atom is a number, or a sum in parentheses.

A derivation has words (`words`), a post-order (`postorder`) and a value
(`value`).  If it has no value, the first of its operators in post-order that
rejects its operands is to blame (`value_eq_error_iff`).
-/

namespace DeskCalculator
namespace Infix

/-- The tiers of the grammar, the loosest first. -/
inductive Tier where
  /-- Sums and differences. -/
  | sum
  /-- Products, quotients and remainders. -/
  | product
  /-- Powers, roots and factorials. -/
  | power
  /-- Numbers and groups. -/
  | atom

/-- The next tier, which binds tighter. -/
def Tier.tighter : Tier → Tier
  | .sum => .product
  | .product => .power
  | .power | .atom => .atom

/-- The tier that a binary operator belongs to. -/
def tier : BinaryOperator → Tier
  | .add | .subtract => .sum
  | .multiply | .divide | .modulo => .product
  | .power | .root => .power

/-- A word that is read as a number. -/
structure Numeral where
  /-- The word. -/
  word : List Char
  /-- The number. -/
  value : Float
  /-- The word is read as the number. -/
  ofWord?_word : Token.ofWord? word = some (.number value)

/-- The derivations of each tier. -/
inductive Expression : Tier → Type where
  /-- A number. -/
  | number (n : Numeral) : Expression .atom
  /-- A sum in parentheses. -/
  | group (e : Expression .sum) : Expression .atom
  /-- A power and `!`. -/
  | factorial (e : Expression .power) : Expression .power
  /-- Two operands around an operator, the left one of the operator's own tier. -/
  | binary (op : BinaryOperator) (left : Expression (tier op))
      (right : Expression (tier op).tighter) : Expression (tier op)
  /-- A product alone. -/
  | ofProduct (e : Expression .product) : Expression .sum
  /-- A power alone. -/
  | ofPower (e : Expression .power) : Expression .product
  /-- An atom alone. -/
  | ofAtom (e : Expression .atom) : Expression .power

namespace Expression

variable {t : Tier}

/-- The words of an expression, in reading order. -/
def words {t : Tier} : Expression t → List (List Char)
  | .number n => [n.word]
  | .group e => ['('] :: (e.words ++ [[')']])
  | .factorial e => e.words ++ [['!']]
  | .binary op left right => left.words ++ [op.symbol] :: right.words
  | .ofProduct e | .ofPower e | .ofAtom e => e.words

/-- The numbers and operators of an expression, each operator right after its
operands, without parentheses. -/
def postorder {t : Tier} : Expression t → List Token
  | .number n => [.number n.value]
  | .group e => e.postorder
  | .factorial e => e.postorder ++ [.operator .factorial]
  | .binary op left right => left.postorder ++ right.postorder ++ [.operator (.binary op)]
  | .ofProduct e | .ofPower e | .ofAtom e => e.postorder

/-! ## Values -/

/-- What an operator computes from the values of its left and right operand.  The
degree of a root stands on the left. -/
def primitive : BinaryOperator → Float → Float → Except DomainError Float
  | .add, x, y => .ok (x + y)
  | .subtract, x, y => .ok (x - y)
  | .multiply, x, y => .ok (x * y)
  | .divide, x, y => Arithmetic.divide x y
  | .modulo, x, y => Arithmetic.modulo x y
  | .power, x, n => Arithmetic.power x n
  | .root, n, x => Arithmetic.root x n

/-- The value of an expression: that of the left operand, then that of the right
one, then what the operator computes from them. -/
def value {t : Tier} : Expression t → Except DomainError Float
  | .number n => .ok n.value
  | .group e => e.value
  | .factorial e => do
    let x ← e.value
    Arithmetic.factorial x
  | .binary op left right => do
    let x ← left.value
    let y ← right.value
    primitive op x y
  | .ofProduct e | .ofPower e | .ofAtom e => e.value

/-! ## The first failure -/

/-- The numbers and applications in an expression in post-order, each application
right after those in its operands. -/
def nodes {t : Tier} : Expression t → List (Sigma Expression)
  | .number n => [⟨_, .number n⟩]
  | .group e => e.nodes
  | .factorial e => e.nodes ++ [⟨_, .factorial e⟩]
  | .binary op left right => left.nodes ++ right.nodes ++ [⟨_, .binary op left right⟩]
  | .ofProduct e | .ofPower e | .ofAtom e => e.nodes

/-- The error of an outcome, if it is one. -/
def error? : Except DomainError Float → Option DomainError
  | .ok _ => none
  | .error d => some d

/-- The error with which the outermost operator rejects its operands, if they have
values and it does. -/
def rejection? {t : Tier} : Expression t → Option DomainError
  | .factorial e =>
    match e.value with
    | .ok x => error? (Arithmetic.factorial x)
    | .error _ => none
  | .binary op left right =>
    match left.value, right.value with
    | .ok x, .ok y => error? (primitive op x y)
    | _, _ => none
  | _ => none

/-- The error of the first node in post-order that rejects its operands. -/
def firstRejection? (e : Expression t) : Option DomainError :=
  e.nodes.findSome? fun node => node.2.rejection?

/-- The error of an expression is that of its first rejecting node. -/
theorem error?_value (e : Expression t) : error? e.value = e.firstRejection? := by
  induction e with
  | number n => rfl
  | group e ih => exact ih
  | factorial e ih =>
    have hnodes : (factorial e).firstRejection? =
        e.firstRejection?.or (factorial e).rejection? := by
      simp [firstRejection?, nodes, List.findSome?_append]
    rw [hnodes, ← ih, value, rejection?]
    cases e.value <;> rfl
  | binary op left right ihl ihr =>
    have hnodes : (binary op left right).firstRejection? =
        (left.firstRejection?.or right.firstRejection?).or (binary op left right).rejection? := by
      simp [firstRejection?, nodes, List.findSome?_append, Option.or_assoc]
    rw [hnodes, ← ihl, ← ihr, value, rejection?]
    cases left.value <;> cases right.value <;> rfl
  | ofProduct e ih => exact ih
  | ofPower e ih => exact ih
  | ofAtom e ih => exact ih

/-- **An expression fails with the error of its first failing node.** -/
theorem value_eq_error_iff {e : Expression t} {d : DomainError} :
    e.value = .error d ↔ e.firstRejection? = some d := by
  rw [← error?_value]
  cases e.value <;> simp [error?]

end Expression
end Infix
end DeskCalculator
