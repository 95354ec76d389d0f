import DeskCalculator.Evaluation

/-!
# Running tokens

Tokens are run one after the other (`run_append`).  How many operands a sequence
finds can be counted without running it: each number raises the height of the
stack by one, and each binary operator lowers it by one (`height`).  A sequence
that counts out on the operands of a stack runs on that stack, unless an operator
rejects its operands (`run_of_height`).  The count may include the implicit zero or
leave it out.
-/

namespace DeskCalculator

/-- The number of operands that an operator takes. -/
def Operator.arity : Operator → Nat
  | .binary _ => 2
  | .factorial => 1

namespace ReversePolish

/-! ## One token after the other -/

@[simp] theorem OperandStack.pop_push (s : OperandStack) (x : Float) (op : Operator) :
    (s.push x).pop op = (.ok x, s) := rfl

theorem run_cons (s : OperandStack) (t : Token) (later : List Token) :
    run s (t :: later) = (step s t).bind fun next => run next later := by
  rw [run]
  cases step s t <;> rfl

/-- Tokens are run one after the other. -/
theorem run_append (s : OperandStack) (earlier later : List Token) :
    run s (earlier ++ later) = (run s earlier).bind fun next => run next later := by
  induction earlier generalizing s with
  | nil => rfl
  | cons t earlier ih =>
    rw [List.cons_append, run_cons, run_cons]
    cases step s t with
    | error e => rfl
    | ok next => exact ih next

/-- A factorial takes the top value. -/
theorem step_factorial (s : OperandStack) (x : Float) :
    step (s.push x) (.operator .factorial) =
      match Arithmetic.factorial x with
      | .ok y => .ok (s.push y)
      | .error d => .error (.domain d) := by
  simp only [step, OperandStack.apply, OperandStack.pop_push]
  cases Arithmetic.factorial x <;> rfl

/-- A binary operator takes the two topmost values, the right one first. -/
theorem step_binary (s : OperandStack) (op : BinaryOperator) (x y : Float) :
    step ((s.push x).push y) (.operator (.binary op)) =
      match Arithmetic.binary op x y with
      | .ok z => .ok (s.push z)
      | .error d => .error (.domain d) := by
  simp only [step, OperandStack.apply, OperandStack.pop_push]
  cases Arithmetic.binary op x y <;> rfl

/-! ## Heights -/

/-- The height of a stack after tokens, given the height before them, if every
operator finds its operands.  Parentheses do not count. -/
def height : Nat → List Token → Option Nat
  | n, [] => some n
  | n, .number _ :: later => height (n + 1) later
  | n, .operator op :: later =>
    if op.arity ≤ n then height (n + 1 - op.arity) later else none
  | n, .leftParenthesis :: later | n, .rightParenthesis :: later => height n later

theorem height_append (n : Nat) (earlier later : List Token) :
    height n (earlier ++ later) = (height n earlier).bind fun m => height m later := by
  induction earlier generalizing n with
  | nil => rfl
  | cons t earlier ih =>
    cases t with
    | number x => exact ih (n + 1)
    | operator op =>
      rw [List.cons_append, height, height]
      by_cases hop : op.arity ≤ n
      · rw [if_pos hop, if_pos hop]
        exact ih _
      · rw [if_neg hop, if_neg hop]
        rfl
    | leftParenthesis => exact ih n
    | rightParenthesis => exact ih n

/-- A higher stack stays higher by as much. -/
theorem height_add {n m : Nat} {tokens : List Token} (h : height n tokens = some m) (k : Nat) :
    height (n + k) tokens = some (m + k) := by
  induction tokens generalizing n with
  | nil =>
    cases h
    rfl
  | cons t tokens ih =>
    cases t with
    | number x =>
      have hnext : height (n + 1 + k) tokens = some (m + k) := ih h
      rwa [Nat.add_right_comm] at hnext
    | operator op =>
      rw [height] at h
      by_cases hop : op.arity ≤ n
      · rw [if_pos hop] at h
        have hadd : n + k + 1 - op.arity = n + 1 - op.arity + k := by omega
        rw [height, if_pos (Nat.le_add_right_of_le hop), hadd]
        exact ih h
      · rw [if_neg hop] at h
        cases h
    | leftParenthesis => exact ih h
    | rightParenthesis => exact ih h

/-! ## Running within a height -/

namespace OperandStack

/-- The number of operands on a stack, with or without an unused implicit zero. -/
def offered (zero : Bool) (s : OperandStack) : Nat :=
  s.values.length + if zero && s.implicitZero then 1 else 0

variable {zero : Bool} {s : OperandStack}

theorem offered_push (x : Float) : (s.push x).offered zero = s.offered zero + 1 :=
  Nat.add_right_comm s.values.length 1 _

/-- An operand that is counted is found. -/
theorem pop_of_offered (h : 0 < s.offered zero) (op : Operator) :
    ∃ x rest, s.pop op = (.ok x, rest) ∧ rest.offered zero + 1 = s.offered zero := by
  obtain ⟨values, implicitZero⟩ := s
  cases values with
  | cons x rest =>
    exact ⟨x, { values := rest, implicitZero }, rfl, (Nat.add_right_comm rest.length 1 _).symm⟩
  | nil =>
    -- nothing but the implicit zero is left to be counted
    cases zero with
    | false => exact absurd h (by simp [offered])
    | true =>
      cases implicitZero with
      | false => exact absurd h (by simp [offered])
      | true => exact ⟨0, { values := [], implicitZero := false }, rfl, rfl⟩

end OperandStack

open OperandStack (offered)

variable {zero : Bool} {s : OperandStack}

/-- What a run ends with if the stack should then offer `n` operands: an operator has
rejected its operands, or the stack does offer them. -/
inductive RunsTo (zero : Bool) (n : Nat) : Except EvaluationError OperandStack → Prop where
  /-- An operator has rejected its operands. -/
  | rejected (d : DomainError) : RunsTo zero n (.error (.domain d))
  /-- All tokens have been run. -/
  | ok {last : OperandStack} : last.offered zero = n → RunsTo zero n (.ok last)

/-- An operator whose operands are counted finds them. -/
theorem step_operator_of_arity {op : Operator} (h : op.arity ≤ s.offered zero) :
    RunsTo zero (s.offered zero + 1 - op.arity) (step s (.operator op)) := by
  cases op with
  | factorial =>
    have hpos : 0 < s.offered zero := h
    obtain ⟨x, rest, hpop, hrest⟩ := OperandStack.pop_of_offered hpos .factorial
    simp only [step, OperandStack.apply, hpop]
    cases Arithmetic.factorial x with
    | error d => exact .rejected d
    | ok y =>
      refine .ok ?_
      rw [OperandStack.offered_push, hrest]
      rfl
  | binary b =>
    have htwo : 2 ≤ s.offered zero := h
    obtain ⟨y, rest, hpop, hrest⟩ :=
      OperandStack.pop_of_offered (Nat.lt_of_succ_lt htwo) (.binary b)
    have hpos : 0 < rest.offered zero := by omega
    obtain ⟨x, last, hpop', hlast⟩ := OperandStack.pop_of_offered hpos (.binary b)
    simp only [step, OperandStack.apply, hpop, hpop']
    cases Arithmetic.binary b x y with
    | error d => exact .rejected d
    | ok z =>
      refine .ok ?_
      rw [OperandStack.offered_push, hlast, ← hrest]
      rfl

/-- **A sequence that counts out runs**, unless an operator rejects its operands. -/
theorem run_of_height {tokens : List Token} {m : Nat}
    (h : height (s.offered zero) tokens = some m) : RunsTo zero m (run s tokens) := by
  induction tokens generalizing s with
  | nil =>
    cases h
    exact .ok rfl
  | cons t tokens ih =>
    cases t with
    | number x =>
      have hnext : height ((s.push x).offered zero) tokens = some m := by
        rw [OperandStack.offered_push]
        exact h
      exact ih hnext
    | operator op =>
      rw [height] at h
      by_cases hop : op.arity ≤ s.offered zero
      · rw [if_pos hop] at h
        have hstep := step_operator_of_arity hop
        rw [run_cons]
        generalize step s (.operator op) = outcome at hstep ⊢
        cases hstep with
        | rejected d => exact .rejected d
        | ok hoffered =>
          rw [← hoffered] at h
          exact ih h
      · rw [if_neg hop] at h
        cases h
    | leftParenthesis => exact ih h
    | rightParenthesis => exact ih h

/-! ## The value that is left -/

/-- A single operand is the value, the implicit zero included. -/
theorem OperandStack.finish_of_offered_one (h : s.offered zero = 1) :
    ∃ x, s.finish = .ok x := by
  obtain ⟨values, implicitZero⟩ := s
  match values with
  | [x] => exact ⟨x, rfl⟩
  | [] =>
    have hzero : (zero && implicitZero) = true := by
      by_cases hzero : (zero && implicitZero) = true
      · exact hzero
      · simp [offered, hzero] at h
    rw [Bool.and_eq_true] at hzero
    exact ⟨0, by rw [hzero.2]; rfl⟩
  | x :: y :: rest =>
    simp only [offered, List.length_cons] at h
    omega

/-- A sequence that leaves one operand has a value, unless an operator rejects its
operands. -/
theorem evaluate_of_height_one (zero : Bool) {tokens : List Token}
    (h : height (({} : OperandStack).offered zero) tokens = some 1) {e : EvaluationError}
    (he : evaluate tokens = .error e) : ∃ d, e = .domain d := by
  have hrun := run_of_height h
  rw [evaluate] at he
  generalize run {} tokens = outcome at hrun he
  cases hrun with
  | rejected d =>
    cases he
    exact ⟨d, rfl⟩
  | ok hoffered =>
    obtain ⟨x, hx⟩ := OperandStack.finish_of_offered_one hoffered
    simp only [hx] at he
    cases he

/-- A sequence that leaves several values besides the implicit zero has too many of
them, unless an operator rejects its operands. -/
theorem evaluate_of_height_of_two_le {tokens : List Token} {m : Nat}
    (h : height 0 tokens = some m) (hm : 2 ≤ m) {e : EvaluationError}
    (he : evaluate tokens = .error e) : (∃ d, e = .domain d) ∨ e = .malformedExpression m := by
  have hrun : RunsTo false m (run {} tokens) := run_of_height h
  rw [evaluate] at he
  generalize run {} tokens = outcome at hrun he
  cases hrun with
  | rejected d =>
    cases he
    exact .inl ⟨d, rfl⟩
  | @ok last hoffered =>
    have hlength : last.values.length = m := hoffered
    obtain ⟨values, implicitZero⟩ := last
    match values with
    | [] => exact absurd hlength (by simp; omega)
    | [x] => exact absurd hlength (by simp; omega)
    | x :: y :: rest =>
      cases he
      exact .inr (congrArg _ hlength)

end ReversePolish
end DeskCalculator
