import Mathlib.Data.List.Induction
import DeskCalculator.Proofs.ReversePolish.Running
import DeskCalculator.Proofs.Text.Scan

/-!
# How any sequence ends

Every sequence of tokens, also one that no conversion writes, is classified by
counting.  With `n` the number of numbers less the number of binary operators so far
(`surplus`), a run stops at the first binary operator with `n = 0`, or at the first
operator that rejects its operands (`Stop`).  If it does not stop, the values that
remain are `n`, and one more if the implicit zero has become an operand, that is if a
factorial was met with `n = 0` or a binary operator with `n = 1` (`remaining`).  The
sequence has a value if one value remains, or if nothing was ever computed
(`evaluate_classified`).

The invariant of a run without a stop is `Reached`.  The implicit zero is an entry of
the stack like any other, so there are always `n + 1` entries; that it is not counted
at the end is a matter of the flag alone.
-/

namespace DeskCalculator

/-- Is the token a number? -/
def Token.isNumber : Token → Bool
  | .number _ => true
  | _ => false

/-- Is the token a binary operator? -/
def Token.isBinary : Token → Bool
  | .operator (.binary _) => true
  | _ => false

namespace ReversePolish

open Scan (Sound FirstFailure)

/-! ## Counting -/

/-- The number of numbers less the number of binary operators. -/
def surplus (tokens : List Token) : Int :=
  tokens.countP Token.isNumber - tokens.countP Token.isBinary

@[simp] theorem surplus_nil : surplus [] = 0 := rfl

theorem surplus_append (earlier later : List Token) :
    surplus (earlier ++ later) = surplus earlier + surplus later := by
  simp only [surplus, List.countP_append]
  omega

@[simp] theorem surplus_number (x : Float) : surplus [.number x] = 1 := rfl

@[simp] theorem surplus_binary (op : BinaryOperator) :
    surplus [.operator (.binary op)] = -1 := rfl

@[simp] theorem surplus_factorial : surplus [.operator .factorial] = 0 := rfl

/-- Does an operator that is met with surplus `n` take the implicit zero? -/
def takesZero (n : Int) : Token → Bool
  | .operator .factorial => n == 0
  | .operator (.binary _) => n == 1
  | _ => false

/-- Does some operator take the implicit zero, if `n` is the surplus before? -/
def usesZeroFrom : Int → List Token → Bool
  | _, [] => false
  | n, t :: later => takesZero n t || usesZeroFrom (n + surplus [t]) later

/-- Does some operator take the implicit zero? -/
def usesZero (tokens : List Token) : Bool :=
  usesZeroFrom 0 tokens

theorem usesZeroFrom_append_singleton (n : Int) (tokens : List Token) (t : Token) :
    usesZeroFrom n (tokens ++ [t]) =
      (usesZeroFrom n tokens || takesZero (n + surplus tokens) t) := by
  induction tokens generalizing n with
  | nil => simp [usesZeroFrom]
  | cons first tokens ih =>
    have hsurplus : surplus (first :: tokens) = surplus [first] + surplus tokens :=
      surplus_append [first] tokens
    rw [List.cons_append, usesZeroFrom, usesZeroFrom, ih, hsurplus, Bool.or_assoc, Int.add_assoc]

theorem usesZero_append_singleton (tokens : List Token) (t : Token) :
    usesZero (tokens ++ [t]) = (usesZero tokens || takesZero (surplus tokens) t) := by
  rw [usesZero, usesZero, usesZeroFrom_append_singleton, Int.zero_add]

/-- The number of values that remain after a run that does not stop. -/
def remaining (tokens : List Token) : Int :=
  surplus tokens + if usesZero tokens then 1 else 0

/-- There is neither a number nor an operator. -/
def Idle (tokens : List Token) : Prop :=
  (∀ x, .number x ∉ tokens) ∧ ∀ op, .operator op ∉ tokens

/-! ## Entries -/

/-- The entries of a stack, the top first, after one token; `none` if it is an
operator that finds too few entries or rejects them. -/
def reduce : List Float → Token → Option (List Float)
  | entries, .number x => some (x :: entries)
  | x :: rest, .operator .factorial => (Arithmetic.factorial x).toOption.map (· :: rest)
  | y :: x :: rest, .operator (.binary op) => (Arithmetic.binary op x y).toOption.map (· :: rest)
  | _, .operator _ => none
  | entries, .leftParenthesis | entries, .rightParenthesis => some entries

/-- The entries after tokens, starting with the implicit zero alone. -/
def entriesAfter (tokens : List Token) : Option (List Float) :=
  tokens.foldlM reduce [0]

theorem entriesAfter_append_singleton {tokens : List Token} {entries : List Float}
    (h : entriesAfter tokens = some entries) (t : Token) :
    entriesAfter (tokens ++ [t]) = reduce entries t := by
  rw [entriesAfter, List.foldlM_append, ← entriesAfter, h]
  show List.foldlM reduce entries [t] = _
  simp

/-- The token stops a run of the tokens before it. -/
inductive Stop (earlier : List Token) : Token → EvaluationError → Prop where
  /-- A binary operator with surplus zero. -/
  | missingOperand {op : BinaryOperator} : surplus earlier = 0 →
      Stop earlier (.operator (.binary op)) (.missingOperand (.binary op))
  /-- A factorial that rejects the top entry. -/
  | factorial {x : Float} {rest : List Float} {d : DomainError} :
      entriesAfter earlier = some (x :: rest) → Arithmetic.factorial x = .error d →
      Stop earlier (.operator .factorial) (.domain d)
  /-- A binary operator that rejects the two topmost entries. -/
  | binary {op : BinaryOperator} {x y : Float} {rest : List Float} {d : DomainError} :
      entriesAfter earlier = some (y :: x :: rest) → Arithmetic.binary op x y = .error d →
      Stop earlier (.operator (.binary op)) (.domain d)

/-! ## A step, seen by entries -/

namespace OperandStack

variable {s : OperandStack} {x y : Float} {rest : List Float}

theorem entries_push (s : OperandStack) (x : Float) : (s.push x).entries = x :: s.entries := by
  obtain ⟨values, implicitZero⟩ := s
  cases implicitZero <;> rfl

/-- The top entry is taken, and the implicit zero with the last one. -/
theorem pop_of_entries (h : s.entries = x :: rest) (op : Operator) :
    ∃ next, s.pop op = (.ok x, next) ∧ next.entries = rest ∧
      next.implicitZero = (s.implicitZero && !rest.isEmpty) := by
  obtain ⟨values, implicitZero⟩ := s
  match values, implicitZero with
  | [], true =>
    cases h
    exact ⟨_, rfl, rfl, rfl⟩
  | [], false => cases h
  | v :: values, true =>
    cases h
    refine ⟨_, rfl, rfl, ?_⟩
    simp
  | v :: values, false =>
    cases h
    exact ⟨_, rfl, rfl, rfl⟩

theorem pop_of_entries_eq_nil (h : s.entries = []) (op : Operator) :
    s.pop op = (.error (.missingOperand op), s) := by
  obtain ⟨values, implicitZero⟩ := s
  match values, implicitZero with
  | [], false => rfl
  | [], true => cases h
  | _ :: _, true => cases h
  | _ :: _, false => cases h

/-- A factorial replaces the top entry. -/
theorem step_factorial_of_entries (h : s.entries = x :: rest) :
    ∃ next : OperandStack, next.entries = rest ∧
      next.implicitZero = (s.implicitZero && !rest.isEmpty) ∧
        step s (.operator .factorial) =
          match Arithmetic.factorial x with
          | .ok z => .ok (next.push z)
          | .error d => .error (.domain d) := by
  obtain ⟨next, hpop, hentries, hzero⟩ := pop_of_entries h .factorial
  refine ⟨next, hentries, hzero, ?_⟩
  simp only [step, apply, hpop]
  cases Arithmetic.factorial x <;> rfl

/-- A binary operator replaces the two topmost entries. -/
theorem step_binary_of_entries (h : s.entries = y :: x :: rest) (op : BinaryOperator) :
    ∃ next : OperandStack, next.entries = rest ∧
      next.implicitZero = (s.implicitZero && !rest.isEmpty) ∧
        step s (.operator (.binary op)) =
          match Arithmetic.binary op x y with
          | .ok z => .ok (next.push z)
          | .error d => .error (.domain d) := by
  obtain ⟨after, hright, hafter, hkept⟩ := pop_of_entries h (.binary op)
  obtain ⟨next, hleft, hentries, hzero⟩ := pop_of_entries hafter (.binary op)
  refine ⟨next, hentries, ?_, ?_⟩
  · rw [hzero, hkept]
    simp
  · simp only [step, apply, hright, hleft]
    cases Arithmetic.binary op x y <;> rfl

/-- A binary operator does not do with a single entry. -/
theorem step_binary_of_single (h : s.entries = [y]) (op : BinaryOperator) :
    step s (.operator (.binary op)) = .error (.missingOperand (.binary op)) := by
  obtain ⟨after, hright, hafter, -⟩ := pop_of_entries h (.binary op)
  simp only [step, apply, hright, pop_of_entries_eq_nil hafter]

/-- The values are the entries without an unused implicit zero. -/
theorem length_add_eq_length_entries (s : OperandStack) :
    s.length + (if s.implicitZero then 1 else 0) = s.entries.length := by
  obtain ⟨values, implicitZero⟩ := s
  cases implicitZero <;> simp [length, entries]

end OperandStack

/-! ## The invariant -/

/-- The stack that a run of the tokens without a stop leads to. -/
structure Reached (tokens : List Token) (s : OperandStack) : Prop where
  /-- Its entries are those that the tokens leave. -/
  entries : entriesAfter tokens = some s.entries
  /-- There is one entry more than the surplus. -/
  length : (s.entries.length : Int) = surplus tokens + 1
  /-- The implicit zero is there as long as no operator has taken it. -/
  implicitZero : s.implicitZero = !usesZero tokens
  /-- No binary operator has lacked an operand. -/
  nonneg : 0 ≤ surplus tokens
  /-- The surplus is zero with the implicit zero unused only at the beginning. -/
  idle : usesZero tokens = false → surplus tokens = 0 → Idle tokens

namespace Reached

variable {tokens : List Token} {s : OperandStack} {t : Token} {e : EvaluationError}

theorem start : Reached [] {} where
  entries := rfl
  length := rfl
  implicitZero := rfl
  nonneg := Int.le_refl 0
  idle _ _ := ⟨by simp, by simp⟩

/-- There is always an entry. -/
theorem exists_entries (h : Reached tokens s) : ∃ x rest, s.entries = x :: rest := by
  refine List.exists_cons_of_ne_nil fun hnil => ?_
  have hlength := h.length
  have hnonneg := h.nonneg
  simp [hnil] at hlength
  omega

/-- With a surplus there are two entries. -/
theorem exists_two_entries (h : Reached tokens s) (hne : surplus tokens ≠ 0) :
    ∃ y x rest, s.entries = y :: x :: rest := by
  obtain ⟨y, rest, hentries⟩ := h.exists_entries
  have hlength := h.length
  cases rest with
  | nil =>
    rw [hentries] at hlength
    simp at hlength
    omega
  | cons x rest => exact ⟨y, x, rest, hentries⟩

theorem number (h : Reached tokens s) (x : Float) :
    Reached (tokens ++ [.number x]) (s.push x) where
  entries := by
    rw [entriesAfter_append_singleton h.entries, OperandStack.entries_push]
    rfl
  length := by
    have hlength := h.length
    rw [OperandStack.entries_push, surplus_append]
    simp
    omega
  implicitZero := by
    have huses : usesZero (tokens ++ [.number x]) = usesZero tokens := by
      rw [usesZero_append_singleton]
      exact Bool.or_false _
    rw [huses]
    exact h.implicitZero
  nonneg := by
    have hnonneg := h.nonneg
    rw [surplus_append, surplus_number]
    omega
  idle _ hsurplus := by
    have hnonneg := h.nonneg
    rw [surplus_append, surplus_number] at hsurplus
    omega

theorem parenthesis (h : Reached tokens s) (hparen : t = .leftParenthesis ∨ t = .rightParenthesis) :
    Reached (tokens ++ [t]) s := by
  have hsurplus : surplus (tokens ++ [t]) = surplus tokens := by
    rw [surplus_append]
    rcases hparen with rfl | rfl <;> exact Int.add_zero _
  have huses : usesZero (tokens ++ [t]) = usesZero tokens := by
    rw [usesZero_append_singleton]
    rcases hparen with rfl | rfl <;> exact Bool.or_false _
  refine ⟨?_, by rw [hsurplus]; exact h.length, by rw [huses]; exact h.implicitZero,
    by rw [hsurplus]; exact h.nonneg, ?_⟩
  · rw [entriesAfter_append_singleton h.entries]
    rcases hparen with rfl | rfl <;> cases s.entries <;> rfl
  · intro hunused hzero
    rw [huses] at hunused
    rw [hsurplus] at hzero
    obtain ⟨hnumbers, hoperators⟩ := h.idle hunused hzero
    rcases hparen with rfl | rfl <;> exact ⟨by simpa using hnumbers, by simpa using hoperators⟩

/-- An operator with entries `rest` below its operands. -/
theorem operator (h : Reached tokens s) {z : Float} {rest : List Float} {next : OperandStack}
    (hreduce : reduce s.entries t = some (z :: rest))
    (hsurplus : surplus (tokens ++ [t]) = rest.length)
    (htakes : takesZero (surplus tokens) t = rest.isEmpty) (hnext : next.entries = rest)
    (hzero : next.implicitZero = (s.implicitZero && !rest.isEmpty)) :
    Reached (tokens ++ [t]) (next.push z) where
  entries := by rw [entriesAfter_append_singleton h.entries, hreduce, OperandStack.entries_push,
    hnext]
  length := by
    rw [OperandStack.entries_push, hnext, hsurplus]
    rfl
  implicitZero := by
    show next.implicitZero = _
    rw [hzero, usesZero_append_singleton, htakes, h.implicitZero, Bool.not_or]
  nonneg := by
    rw [hsurplus]
    exact Int.natCast_nonneg _
  idle hunused hempty := by
    -- the operands were not the last entries, so the surplus is not zero
    rw [usesZero_append_singleton, htakes, Bool.or_eq_false_iff] at hunused
    cases rest with
    | nil => simp at hunused
    | cons y rest => simp [hsurplus] at hempty; omega

theorem factorial (h : Reached tokens s) {x z : Float} {rest : List Float} {next : OperandStack}
    (hentries : s.entries = x :: rest) (hvalue : Arithmetic.factorial x = .ok z)
    (hnext : next.entries = rest)
    (hzero : next.implicitZero = (s.implicitZero && !rest.isEmpty)) :
    Reached (tokens ++ [.operator .factorial]) (next.push z) := by
  have hlength := h.length
  rw [hentries, List.length_cons] at hlength
  push_cast at hlength
  refine h.operator ?_ ?_ ?_ hnext hzero
  · simp [hentries, reduce, hvalue, Except.toOption]
  · rw [surplus_append, surplus_factorial]
    omega
  · cases rest <;> simp [takesZero] at hlength ⊢ <;> omega

theorem binary (h : Reached tokens s) {op : BinaryOperator} {x y z : Float} {rest : List Float}
    {next : OperandStack} (hentries : s.entries = y :: x :: rest)
    (hvalue : Arithmetic.binary op x y = .ok z) (hnext : next.entries = rest)
    (hzero : next.implicitZero = (s.implicitZero && !rest.isEmpty)) :
    Reached (tokens ++ [.operator (.binary op)]) (next.push z) := by
  have hlength := h.length
  rw [hentries, List.length_cons, List.length_cons] at hlength
  push_cast at hlength
  refine h.operator ?_ ?_ ?_ hnext hzero
  · simp [hentries, reduce, hvalue, Except.toOption]
  · rw [surplus_append, surplus_binary]
    omega
  · cases rest <;> simp [takesZero] at hlength ⊢ <;> omega

/-- **A token that does not stop the run leads on.** -/
theorem exists_step (h : Reached tokens s) (hstop : ∀ e, ¬ Stop tokens t e) :
    ∃ next, step s t = .ok next ∧ Reached (tokens ++ [t]) next := by
  cases t with
  | number x => exact ⟨s.push x, rfl, h.number x⟩
  | leftParenthesis => exact ⟨s, rfl, h.parenthesis (Or.inl rfl)⟩
  | rightParenthesis => exact ⟨s, rfl, h.parenthesis (Or.inr rfl)⟩
  | operator op =>
    cases op with
    | factorial =>
      obtain ⟨x, rest, hentries⟩ := h.exists_entries
      obtain ⟨next, hnext, hzero, hstep⟩ := OperandStack.step_factorial_of_entries hentries
      cases hvalue : Arithmetic.factorial x with
      | error d => exact absurd (.factorial (hentries ▸ h.entries) hvalue) (hstop (.domain d))
      | ok z =>
        rw [hvalue] at hstep
        exact ⟨_, hstep, h.factorial hentries hvalue hnext hzero⟩
    | binary op =>
      have hne : surplus tokens ≠ 0 := fun hzero => hstop _ (.missingOperand hzero)
      obtain ⟨y, x, rest, hentries⟩ := h.exists_two_entries hne
      obtain ⟨next, hnext, hzero, hstep⟩ := OperandStack.step_binary_of_entries hentries op
      cases hvalue : Arithmetic.binary op x y with
      | error d => exact absurd (.binary (hentries ▸ h.entries) hvalue) (hstop (.domain d))
      | ok z =>
        rw [hvalue] at hstep
        exact ⟨_, hstep, h.binary hentries hvalue hnext hzero⟩

/-- A token that stops the run does so with its error. -/
theorem step_eq_error (h : Reached tokens s) (hstop : Stop tokens t e) : step s t = .error e := by
  cases hstop with
  | @missingOperand op hsurplus =>
    obtain ⟨y, rest, hentries⟩ := h.exists_entries
    have hlength := h.length
    rw [hentries, hsurplus] at hlength
    cases rest with
    | nil => exact OperandStack.step_binary_of_single hentries op
    | cons x rest => simp at hlength; omega
  | factorial hentries hvalue =>
    rw [h.entries, Option.some.injEq] at hentries
    obtain ⟨next, -, -, hstep⟩ := OperandStack.step_factorial_of_entries hentries
    rw [hstep, hvalue]
  | @binary op x y rest d hentries hvalue =>
    rw [h.entries, Option.some.injEq] at hentries
    obtain ⟨next, -, -, hstep⟩ := OperandStack.step_binary_of_entries hentries op
    rw [hstep, hvalue]

/-- The values on the stack are those that remain. -/
theorem length_eq (h : Reached tokens s) : (s.length : Int) = remaining tokens := by
  have hentries := s.length_add_eq_length_entries
  have hlength := h.length
  rw [h.implicitZero] at hentries
  rw [remaining]
  cases huses : usesZero tokens <;> simp [huses] at hentries ⊢ <;> omega

end Reached

/-- **A run without a stop leads to the end**, and the counts describe its stack. -/
theorem exists_reached {tokens : List Token} (h : Sound Stop tokens) :
    ∃ s, run {} tokens = .ok s ∧ Reached tokens s := by
  induction tokens using List.reverseRecOn with
  | nil => exact ⟨{}, rfl, .start⟩
  | append_singleton tokens t ih =>
    obtain ⟨hsound, hstop⟩ := Scan.sound_append_singleton_iff.1 h
    obtain ⟨s, hrun, hreached⟩ := ih hsound
    obtain ⟨next, hstep, hnext⟩ := hreached.exists_step hstop
    refine ⟨next, ?_, hnext⟩
    rw [run_append, hrun]
    show run s [t] = .ok next
    rw [run_cons, hstep]
    rfl

/-- **A run ends with its first stop.** -/
theorem run_of_firstFailure {tokens : List Token} {e : EvaluationError}
    (h : FirstFailure Stop tokens e) : run {} tokens = .error e := by
  obtain ⟨earlier, t, later, rfl, hsound, hstop⟩ := h.exists_split
  obtain ⟨s, hrun, hreached⟩ := exists_reached hsound
  rw [run_append, hrun]
  show run s (t :: later) = .error e
  rw [run_cons, hreached.step_eq_error hstop]
  rfl

/-! ## The end of a run -/

namespace Reached

variable {tokens : List Token} {s : OperandStack}

/-- If one value remains, it is the result. -/
theorem finish_of_remaining_eq_one (h : Reached tokens s) (hone : remaining tokens = 1) :
    ∃ x rest, entriesAfter tokens = some (x :: rest) ∧ s.finish = .ok x := by
  have hlength := h.length_eq
  rw [hone] at hlength
  have hentries := h.entries
  obtain ⟨values, implicitZero⟩ := s
  match values with
  | [x] => cases implicitZero <;> exact ⟨x, _, hentries, rfl⟩
  | [] => simp [OperandStack.length] at hlength
  | x :: y :: rest => simp [OperandStack.length] at hlength; omega

/-- Otherwise two values or more remain, unless nothing was computed. -/
theorem finish_eq_error (h : Reached tokens s) (hone : remaining tokens ≠ 1)
    (hidle : ¬ Idle tokens) :
    ∃ r : Nat, remaining tokens = r ∧ 2 ≤ r ∧ s.finish = .error (.malformedExpression r) := by
  have hlength := h.length_eq
  refine ⟨s.length, hlength.symm, ?_⟩
  obtain ⟨values, implicitZero⟩ := s
  match values with
  | [] =>
    have hnonneg := h.nonneg
    rw [remaining] at hlength
    cases huses : usesZero tokens with
    | false =>
      have hsurplus : surplus tokens = 0 := by
        simp [huses, OperandStack.length] at hlength
        omega
      exact absurd (h.idle huses hsurplus) hidle
    | true =>
      simp [huses, OperandStack.length] at hlength
      omega
  | [x] => exact absurd hlength.symm hone
  | x :: y :: rest => exact ⟨by simp [OperandStack.length], rfl⟩

end Reached

/-- Parentheses alone do nothing. -/
theorem run_of_idle {tokens : List Token} (h : Idle tokens) (s : OperandStack) :
    run s tokens = .ok s := by
  obtain ⟨hnumbers, hoperators⟩ := h
  induction tokens with
  | nil => rfl
  | cons t tokens ih =>
    have hrest : run s tokens = .ok s :=
      ih (fun x hx => hnumbers x (List.mem_cons_of_mem _ hx))
        fun op hop => hoperators op (List.mem_cons_of_mem _ hop)
    cases t with
    | number x => exact absurd (List.mem_cons_self ..) (hnumbers x)
    | operator op => exact absurd (List.mem_cons_self ..) (hoperators op)
    | leftParenthesis => exact hrest
    | rightParenthesis => exact hrest

/-- Where nothing is computed, the value is the implicit zero. -/
theorem evaluate_of_idle {tokens : List Token} (h : Idle tokens) :
    evaluate tokens = .ok (.integer 0) := by
  have hzero : Number.normalize 0 = .integer 0 := by decide +kernel
  rw [evaluate, run_of_idle h, ← hzero]
  rfl

variable {tokens : List Token}

/-- If one value remains, it is the result. -/
theorem evaluate_of_remaining_eq_one (h : Sound Stop tokens) (hone : remaining tokens = 1) :
    ∃ x rest, entriesAfter tokens = some (x :: rest) ∧
      evaluate tokens = .ok (Number.normalize x) := by
  obtain ⟨s, hrun, hreached⟩ := exists_reached h
  obtain ⟨x, rest, hentries, hfinish⟩ := hreached.finish_of_remaining_eq_one hone
  refine ⟨x, rest, hentries, ?_⟩
  simp only [evaluate, hrun, hfinish]
  rfl

/-- If several values remain, their number is reported. -/
theorem evaluate_of_remaining_ne_one (h : Sound Stop tokens) (hone : remaining tokens ≠ 1)
    (hidle : ¬ Idle tokens) :
    ∃ r : Nat, remaining tokens = r ∧ 2 ≤ r ∧
      evaluate tokens = .error (.malformedExpression r) := by
  obtain ⟨s, hrun, hreached⟩ := exists_reached h
  obtain ⟨r, hremaining, htwo, hfinish⟩ := hreached.finish_eq_error hone hidle
  refine ⟨r, hremaining, htwo, ?_⟩
  simp only [evaluate, hrun, hfinish]
  rfl

theorem evaluate_of_firstFailure {e : EvaluationError} (h : FirstFailure Stop tokens e) :
    evaluate tokens = .error e := by
  rw [evaluate, run_of_firstFailure h]

/-- **How any sequence ends.**  It ends with its first stop, if it has one.  Otherwise
it has a value exactly if one value remains or nothing was computed, the value of nothing
being zero; in all other cases the values that remain are reported, and they are at least
two.  No factorial ever lacks its operand. -/
theorem evaluate_classified (tokens : List Token) :
    (∀ e, FirstFailure Stop tokens e → evaluate tokens = .error e) ∧
      (Sound Stop tokens →
        ((∃ n, evaluate tokens = .ok n) ↔ remaining tokens = 1 ∨ Idle tokens) ∧
          (Idle tokens → evaluate tokens = .ok (.integer 0)) ∧
            (¬ (remaining tokens = 1 ∨ Idle tokens) →
              ∃ r : Nat, remaining tokens = r ∧ 2 ≤ r ∧
                evaluate tokens = .error (.malformedExpression r))) ∧
        evaluate tokens ≠ .error (.missingOperand .factorial) := by
  have hmalformed : Sound Stop tokens → ¬ (remaining tokens = 1 ∨ Idle tokens) →
      ∃ r : Nat, remaining tokens = r ∧ 2 ≤ r ∧
        evaluate tokens = .error (.malformedExpression r) := by
    intro hsound hnot
    rw [not_or] at hnot
    exact evaluate_of_remaining_ne_one hsound hnot.1 hnot.2
  have hvalue : Sound Stop tokens → remaining tokens = 1 ∨ Idle tokens →
      ∃ n, evaluate tokens = .ok n := by
    rintro hsound (hone | hidle)
    · obtain ⟨x, -, -, heval⟩ := evaluate_of_remaining_eq_one hsound hone
      exact ⟨_, heval⟩
    · exact ⟨_, evaluate_of_idle hidle⟩
  refine ⟨fun e he => evaluate_of_firstFailure he, fun hsound => ⟨⟨?_, hvalue hsound⟩,
    evaluate_of_idle, hmalformed hsound⟩, ?_⟩
  · rintro ⟨n, hn⟩
    by_contra hnot
    obtain ⟨r, -, -, herror⟩ := hmalformed hsound hnot
    rw [hn] at herror
    cases herror
  · intro herror
    rcases Scan.sound_or_firstFailure Stop tokens with hsound | ⟨e, hfirst⟩
    · by_cases hone : remaining tokens = 1 ∨ Idle tokens
      · obtain ⟨n, hn⟩ := hvalue hsound hone
        rw [hn] at herror
        cases herror
      · obtain ⟨r, -, -, hr⟩ := hmalformed hsound hone
        rw [hr] at herror
        cases herror
    · obtain ⟨earlier, t, later, -, -, hstop⟩ := hfirst.exists_split
      rw [evaluate_of_firstFailure hfirst] at herror
      cases herror
      cases hstop

end ReversePolish
end DeskCalculator
