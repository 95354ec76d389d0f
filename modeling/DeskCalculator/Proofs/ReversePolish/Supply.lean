import DeskCalculator.Proofs.ReversePolish.Conversion
import DeskCalculator.Proofs.ReversePolish.Running

/-!
# Operands for the operators that wait

A conversion that has read as many operands as its operators need writes a sequence
that counts out.  The invariant is `Supplies`: what has been written leads to one
operand more for every binary operator that waits, since each of these will take
away one.  A number adds an operand, a binary operator takes one, and nothing else
changes the count, as long as there is one operand in the first place.
-/

namespace DeskCalculator
namespace ReversePolish

/-! ## Binary operators that wait -/

/-- Does the entry wait as a binary operator? -/
def Pending.isBinary : Pending → Bool
  | .operator (.binary _) => true
  | _ => false

/-- The number of binary operators that wait. -/
def awaiting (stack : List Pending) : Nat :=
  stack.countP Pending.isBinary

theorem awaiting_append (stack other : List Pending) :
    awaiting (stack ++ other) = awaiting stack + awaiting other :=
  List.countP_append

theorem awaiting_group (position : Nat) (stack : List Pending) :
    awaiting (.group position :: stack) = awaiting stack :=
  List.countP_cons_of_neg (by simp [Pending.isBinary])

theorem awaiting_binary (op : BinaryOperator) (stack : List Pending) :
    awaiting (.operator (.binary op) :: stack) = awaiting stack + 1 :=
  List.countP_cons_of_pos rfl

theorem awaiting_factorial (stack : List Pending) :
    awaiting (.operator .factorial :: stack) = awaiting stack :=
  List.countP_cons_of_neg (by simp [Pending.isBinary])

/-- Operators that are released find their operands and leave at least one. -/
theorem height_released (n : Nat) (ops : List Operator) :
    height (n + 1 + awaiting (waiting ops)) (ops.map .operator) = some (n + 1) := by
  induction ops with
  | nil => rfl
  | cons op ops ih =>
    rw [waiting_cons, List.map_cons, height]
    cases op with
    | binary b =>
      have harity : (Operator.binary b).arity = 2 := rfl
      rw [awaiting_binary, harity, if_pos (by omega)]
      exact ih
    | factorial =>
      have harity : Operator.factorial.arity = 1 := rfl
      rw [awaiting_factorial, harity, if_pos (by omega)]
      exact ih

/-! ## The invariant -/

namespace Conversion

/-- On a stack of height `start`, what has been written leads to `n` operands and one
more for every binary operator that waits. -/
def Supplies (c : Conversion) (start n : Nat) : Prop :=
  height start c.output = some (n + awaiting c.pending)

variable {c : Conversion} {start n : Nat}

theorem Supplies.add (h : c.Supplies start n) (k : Nat) : c.Supplies (start + k) (n + k) := by
  rw [Supplies, Nat.add_right_comm]
  exact height_add h k

theorem Supplies.number (h : c.Supplies start n) (x : Float) :
    (c.number x).Supplies start (n + 1) := by
  have hheight : height start c.output = some (n + awaiting c.pending) := h
  rw [Supplies, output_number, height_append, hheight]
  show some (n + awaiting c.pending + 1) = some (n + 1 + awaiting c.pending)
  rw [Nat.add_right_comm]

theorem Supplies.openGroup (h : c.Supplies start n) (position : Nat) :
    (c.openGroup position).Supplies start n := by
  have hheight : height start c.output = some (n + awaiting c.pending) := h
  rw [Supplies, output_openGroup, hheight]
  show some (n + awaiting c.pending) = some (n + awaiting (.group position :: c.pending))
  rw [awaiting_group]

/-- What is released leaves one operand for each binary operator that is kept. -/
theorem Supplies.height_write (h : c.Supplies start (n + 1)) {ops : List Operator}
    {kept : List Pending} (hpending : c.pending = waiting ops ++ kept) (others : List Pending) :
    height start (c.write ops others).output = some (n + 1 + awaiting kept) := by
  have hheight : height start c.output = some (n + 1 + awaiting c.pending) := h
  have hcount : n + 1 + awaiting c.pending = n + awaiting kept + 1 + awaiting (waiting ops) := by
    rw [hpending, awaiting_append]
    omega
  rw [output_write, height_append, hheight, hcount]
  show height _ _ = _
  rw [height_released, Nat.add_right_comm]

theorem Supplies.binary (h : c.Supplies start (n + 1)) (op : BinaryOperator) :
    (c.operator (.binary op)).Supplies start n := by
  let kept := (release (Operator.binary op).precedence c.pending).2
  have hheight : height start (c.operator (.binary op)).output = some (n + 1 + awaiting kept) :=
    h.height_write (release_eq _ c.pending) _
  have hcount : awaiting (.operator (.binary op) :: kept) = awaiting kept + 1 :=
    awaiting_binary op kept
  rw [Supplies, hheight, pending_operator, hcount, Nat.add_right_comm]
  rfl

theorem Supplies.factorial (h : c.Supplies start (n + 1)) :
    (c.operator .factorial).Supplies start (n + 1) := by
  let kept := (release Operator.factorial.precedence c.pending).2
  have hheight : height start (c.operator .factorial).output = some (n + 1 + awaiting kept) :=
    h.height_write (release_eq _ c.pending) _
  have hcount : awaiting (.operator .factorial :: kept) = awaiting kept := awaiting_factorial kept
  rw [Supplies, hheight, pending_operator, hcount]

theorem Supplies.closeGroup (h : c.Supplies start (n + 1)) {ops : List Operator}
    {opening : Nat} {rest : List Pending}
    (hpending : c.pending = waiting ops ++ .group opening :: rest) :
    (c.write ops rest).Supplies start (n + 1) := by
  have hheight := h.height_write hpending rest
  rw [awaiting_group] at hheight
  exact hheight

/-- At the end all that waits is written, and the sequence leads to `n` operands. -/
theorem Supplies.finish (h : c.Supplies start (n + 1)) {ops : List Operator}
    (hpending : c.pending = waiting ops) :
    height start (c.write ops []).output = some (n + 1) := by
  rw [← List.append_nil (waiting ops)] at hpending
  exact h.height_write hpending []

end Conversion
end ReversePolish
end DeskCalculator
