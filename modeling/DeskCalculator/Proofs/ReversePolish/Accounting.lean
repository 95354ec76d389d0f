import Mathlib.Data.List.Basic
import DeskCalculator.Proofs.ReversePolish.Classification

/-!
# Accounting for the implicit zero

The operand stack keeps the implicit zero apart from its values.  It can also be kept
as one list that starts with the zero, an entry like any other, and a flag beside the
list that says whether the zero is still unused (`SeededStack`).  The flag changes only
where an operand is taken, by the length of the list at that moment; that it tells the
truth is not built into the type.  `Sound` is what makes it true: as long as the flag is
up, the entry at the bottom is the zero.

Calls may come in any order, and after one that failed others may follow, on the stack
that it has left without some of its operands.  Whatever they are, the two stacks stay
the same (`after_seeded`), every call keeps `Sound` (`Sound.call`), and the flag goes down
with the call that takes the last entry, and at no other time (`Sound.zeroUnused_call`).
-/

namespace DeskCalculator
namespace ReversePolish

/-- What a stack can be asked for while an expression is evaluated. -/
inductive Call where
  /-- A value is put on top. -/
  | push (x : Float)
  /-- An operand is taken for an operator. -/
  | pop (op : Operator)
  /-- An operator is applied. -/
  | apply (op : Operator)
  deriving DecidableEq, Repr

namespace OperandStack

/-- The answer to a call, which is a value only where one is taken, and the stack that
the call leaves even if it fails. -/
def call (s : OperandStack) : Call → Except EvaluationError (Option Float) × OperandStack
  | .push x => (.ok none, s.push x)
  | .pop op => ((s.pop op).1.map some, (s.pop op).2)
  | .apply op => ((s.apply op).1.map fun _ => none, (s.apply op).2)

/-- The stack after calls one after the other, failing ones included. -/
def after (s : OperandStack) (calls : List Call) : OperandStack :=
  calls.foldl (fun s c => (s.call c).2) s

end OperandStack

/-- An operand stack as one list, with the implicit zero at the bottom. -/
structure SeededStack where
  /-- All entries, the top first. -/
  entries : List Float := [0]
  /-- Is the implicit zero still unused? -/
  zeroUnused : Bool := true
  deriving DecidableEq, Repr

namespace SeededStack

/-- The number of entries, not counting an unused implicit zero. -/
def length (t : SeededStack) : Nat :=
  t.entries.length - t.zeroUnused.toNat

/-- Put a value on top. -/
def push (t : SeededStack) (x : Float) : SeededStack :=
  { t with entries := x :: t.entries }

/-- Take the top entry for an operator.  With the last entry the implicit zero is used. -/
def pop (t : SeededStack) (op : Operator) : Except EvaluationError Float × SeededStack :=
  match t.entries with
  | [] => (.error (.missingOperand op), t)
  | x :: rest =>
    (.ok x, { entries := rest, zeroUnused := if rest.isEmpty then false else t.zeroUnused })

/-- Put the value of an operator on top, unless it rejected its operands. -/
def settle (t : SeededStack) :
    Except DomainError Float → Except EvaluationError Unit × SeededStack
  | .ok x => (.ok (), t.push x)
  | .error e => (.error (.domain e), t)

/-- Apply an operator to the topmost entries, the right operand being the top. -/
def apply (t : SeededStack) (op : Operator) : Except EvaluationError Unit × SeededStack :=
  match t.pop op with
  | (.error e, rest) => (.error e, rest)
  | (.ok right, rest) =>
    match op with
    | .factorial => rest.settle (Arithmetic.factorial right)
    | .binary b =>
      match rest.pop op with
      | (.error e, last) => (.error e, last)
      | (.ok left, last) => last.settle (Arithmetic.binary b left right)

/-- The result: the only entry that counts, or zero if nothing was ever done. -/
def finish (t : SeededStack) : Except EvaluationError Float :=
  if t.length == 0 && t.zeroUnused then .ok 0
  else
    match t.length, t.entries with
    | 1, x :: _ => .ok x
    | remaining, _ => .error (.malformedExpression remaining)

/-- The answer to a call, and the stack that the call leaves even if it fails. -/
def call (t : SeededStack) : Call → Except EvaluationError (Option Float) × SeededStack
  | .push x => (.ok none, t.push x)
  | .pop op => ((t.pop op).1.map some, (t.pop op).2)
  | .apply op => ((t.apply op).1.map fun _ => none, (t.apply op).2)

/-- The stack after calls one after the other, failing ones included. -/
def after (t : SeededStack) (calls : List Call) : SeededStack :=
  calls.foldl (fun t c => (t.call c).2) t

theorem after_append_singleton (t : SeededStack) (calls : List Call) (c : Call) :
    t.after (calls ++ [c]) = ((t.after calls).call c).2 :=
  List.foldl_concat ..

end SeededStack

/-! ## The two stacks are the same -/

namespace OperandStack

/-- The stack as one list. -/
def seeded (s : OperandStack) : SeededStack where
  entries := s.entries
  zeroUnused := s.implicitZero

theorem length_seeded (s : OperandStack) : s.seeded.length = s.length := by
  have hlength : s.length + s.implicitZero.toNat = s.entries.length := by
    rw [← s.length_add_eq_length_entries]
    cases s.implicitZero <;> rfl
  exact Nat.sub_eq_of_eq_add hlength.symm

theorem push_seeded (s : OperandStack) (x : Float) : s.seeded.push x = (s.push x).seeded := by
  rw [SeededStack.push, seeded, seeded, entries_push]
  rfl

theorem pop_seeded (s : OperandStack) (op : Operator) :
    s.seeded.pop op = ((s.pop op).1, (s.pop op).2.seeded) := by
  cases hentries : s.entries with
  | nil => simp [SeededStack.pop, seeded, hentries, pop_of_entries_eq_nil hentries]
  | cons x rest =>
    obtain ⟨next, hpop, hnext, hzero⟩ := pop_of_entries hentries op
    cases rest <;> simp [SeededStack.pop, seeded, hentries, hpop, hnext, hzero]

theorem settle_seeded (s : OperandStack) (outcome : Except DomainError Float) :
    s.seeded.settle outcome = ((s.settle outcome).1, (s.settle outcome).2.seeded) := by
  cases outcome with
  | ok x => rw [SeededStack.settle, settle, push_seeded]
  | error e => rfl

theorem apply_seeded (s : OperandStack) (op : Operator) :
    s.seeded.apply op = ((s.apply op).1, (s.apply op).2.seeded) := by
  rw [SeededStack.apply, apply, pop_seeded]
  obtain ⟨right, rest⟩ := s.pop op
  cases right with
  | error e => rfl
  | ok y =>
    cases op with
    | factorial => exact rest.settle_seeded _
    | binary b =>
      dsimp only
      rw [pop_seeded]
      obtain ⟨left, last⟩ := rest.pop (.binary b)
      cases left with
      | error e => rfl
      | ok x => exact last.settle_seeded _

theorem finish_seeded (s : OperandStack) : s.seeded.finish = s.finish := by
  rw [SeededStack.finish, length_seeded]
  obtain ⟨values, implicitZero⟩ := s
  match values, implicitZero with
  | [], true => rfl
  | [], false => rfl
  | [x], true => rfl
  | [x], false => rfl
  | x :: y :: rest, true => rfl
  | x :: y :: rest, false => rfl

theorem call_seeded (s : OperandStack) (c : Call) :
    s.seeded.call c = ((s.call c).1, (s.call c).2.seeded) := by
  cases c with
  | push x => rw [SeededStack.call, call, push_seeded]
  | pop op => rw [SeededStack.call, call, pop_seeded]
  | apply op => rw [SeededStack.call, call, apply_seeded]

/-- Calls keep the two stacks the same. -/
theorem after_seeded (s : OperandStack) (calls : List Call) :
    s.seeded.after calls = (s.after calls).seeded :=
  List.foldl_hom seeded fun s c => by rw [call_seeded]

end OperandStack

namespace SeededStack

variable {t : SeededStack} {op : Operator} {c : Call}

/-! ## The zero at the bottom -/

/-- As long as the flag is up, the entry at the bottom is the implicit zero, the positive
one. -/
def Sound (t : SeededStack) : Prop :=
  t.zeroUnused = true → ∃ above, t.entries = above ++ [0]

theorem sound_start : Sound {} :=
  fun _ => ⟨[], rfl⟩

theorem Sound.entries_ne_nil (h : t.Sound) (hunused : t.zeroUnused = true) :
    t.entries ≠ [] := by
  obtain ⟨above, habove⟩ := h hunused
  rw [habove]
  simp

/-- An unused zero is one of the entries, so it can be left out of their number. -/
theorem Sound.toNat_le (h : t.Sound) : t.zeroUnused.toNat ≤ t.entries.length := by
  cases hzero : t.zeroUnused with
  | false => exact Nat.zero_le _
  | true =>
    obtain ⟨above, habove⟩ := h hzero
    rw [habove, List.length_append]
    exact Nat.le_add_left ..

theorem Sound.push (h : t.Sound) (x : Float) : (t.push x).Sound := by
  intro hzero
  obtain ⟨above, habove⟩ := h hzero
  exact ⟨x :: above, congrArg (x :: ·) habove⟩

theorem Sound.pop (h : t.Sound) (op : Operator) : (t.pop op).2.Sound := by
  obtain ⟨entries, zeroUnused⟩ := t
  match entries with
  | [] => exact h
  | [x] =>
    intro hzero
    cases hzero
  | x :: y :: rest =>
    intro hzero
    obtain ⟨above, habove⟩ := h hzero
    cases above with
    | nil => cases habove
    | cons z above => exact ⟨above, (List.cons.inj habove).2⟩

/-! ## What is taken -/

theorem entries_pop (t : SeededStack) (op : Operator) :
    (t.pop op).2.entries = t.entries.drop 1 := by
  obtain ⟨entries, zeroUnused⟩ := t
  cases entries <;> rfl

/-- The flag goes down with the last entry. -/
theorem Sound.zeroUnused_pop (h : t.Sound) (op : Operator) :
    (t.pop op).2.zeroUnused = false ↔ t.zeroUnused = false ∨ (t.pop op).2.entries = [] := by
  obtain ⟨entries, zeroUnused⟩ := t
  match entries with
  | [] =>
    -- nothing can be taken, and the flag is already down
    cases zeroUnused with
    | false => simp [SeededStack.pop]
    | true => exact absurd rfl (h.entries_ne_nil rfl)
  | [x] => simp [SeededStack.pop]
  | x :: y :: rest => simp [SeededStack.pop]

/-- The stack without the operands of an operator. -/
def without (t : SeededStack) : Operator → SeededStack
  | .factorial => (t.pop .factorial).2
  | .binary b => ((t.pop (.binary b)).2.pop (.binary b)).2

/-- The stacks that the operands taken by a call leave, one after the other. -/
def popped (t : SeededStack) : Call → List SeededStack
  | .push _ => []
  | .pop op => [(t.pop op).2]
  | .apply .factorial => [(t.pop .factorial).2]
  | .apply (.binary b) => [(t.pop (.binary b)).2, ((t.pop (.binary b)).2.pop (.binary b)).2]

/-- The call takes the last entry. -/
def Empties (t : SeededStack) (c : Call) : Prop :=
  t.entries ≠ [] ∧ ∃ u ∈ t.popped c, u.entries = []

theorem entries_without (t : SeededStack) (op : Operator) :
    (t.without op).entries = t.entries.drop op.arity := by
  cases op with
  | factorial => exact t.entries_pop _
  | binary b =>
    rw [without, entries_pop, entries_pop, List.drop_drop]
    rfl

theorem Sound.without (h : t.Sound) (op : Operator) : (t.without op).Sound := by
  cases op with
  | factorial => exact h.pop _
  | binary b => exact (h.pop _).pop _

/-- The flag goes down if the operands include the last entry. -/
theorem Sound.zeroUnused_without (h : t.Sound) (op : Operator) :
    (t.without op).zeroUnused = false ↔
      t.zeroUnused = false ∨ ∃ u ∈ t.popped (.apply op), u.entries = [] := by
  cases op with
  | factorial =>
    rw [SeededStack.without, h.zeroUnused_pop]
    simp [popped]
  | binary b =>
    rw [SeededStack.without, (h.pop _).zeroUnused_pop, h.zeroUnused_pop]
    simp [popped, or_assoc]

theorem settle_cases (t : SeededStack) (outcome : Except DomainError Float) :
    (∃ x, t.settle outcome = (.ok (), t.push x)) ∨ ∃ e, t.settle outcome = (.error e, t) := by
  cases outcome with
  | ok x => exact Or.inl ⟨x, rfl⟩
  | error d => exact Or.inr ⟨.domain d, rfl⟩

/-- What applying an operator can do: it takes its operands and puts a value on top, or
it fails, and all it has done is to take the operands that there were. -/
theorem apply_cases (t : SeededStack) (op : Operator) :
    (op.arity ≤ t.entries.length ∧ ∃ x, t.apply op = (.ok (), (t.without op).push x)) ∨
      ∃ e, t.apply op = (.error e, t.without op) := by
  obtain ⟨entries, zeroUnused⟩ := t
  cases op with
  | factorial =>
    match entries with
    | [] => exact Or.inr ⟨_, rfl⟩
    | x :: rest =>
      have harity : Operator.factorial.arity ≤ (x :: rest).length := Nat.le_add_left ..
      exact (settle_cases _ (Arithmetic.factorial x)).imp (⟨harity, ·⟩) id
  | binary b =>
    match entries with
    | [] => exact Or.inr ⟨_, rfl⟩
    | [y] => exact Or.inr ⟨_, rfl⟩
    | y :: x :: rest =>
      have harity : (Operator.binary b).arity ≤ (y :: x :: rest).length := Nat.le_add_left ..
      exact (settle_cases _ (Arithmetic.binary b x y)).imp (⟨harity, ·⟩) id

/-- An operator that can be applied finds its operands and replaces them by a value. -/
theorem entries_apply_of_ok (h : (t.apply op).1 = .ok ()) :
    op.arity ≤ t.entries.length ∧
      ∃ x, (t.apply op).2.entries = x :: t.entries.drop op.arity := by
  rcases t.apply_cases op with ⟨harity, x, happly⟩ | ⟨e, happly⟩
  · rw [happly, ← entries_without]
    exact ⟨harity, x, rfl⟩
  · rw [happly] at h
    cases h

/-- An operator that fails has taken its operands, as far as there were any. -/
theorem entries_apply_of_error {e : EvaluationError} (h : (t.apply op).1 = .error e) :
    (t.apply op).2.entries = t.entries.drop (min op.arity t.entries.length) := by
  rcases t.apply_cases op with ⟨-, x, happly⟩ | ⟨e, happly⟩
  · rw [happly] at h
    cases h
  · rw [happly, entries_without, List.drop_eq_drop_min]

/-! ## Calls -/

theorem Sound.call (h : t.Sound) (c : Call) : (t.call c).2.Sound := by
  cases c with
  | push x => exact h.push x
  | pop op => exact h.pop op
  | apply op =>
    rw [SeededStack.call]
    rcases t.apply_cases op with ⟨-, x, happly⟩ | ⟨e, happly⟩
    · rw [happly]
      exact (h.without op).push x
    · rw [happly]
      exact h.without op

/-- **A call uses the zero exactly if it takes the last entry.** -/
theorem Sound.zeroUnused_call (h : t.Sound) (c : Call) :
    (t.call c).2.zeroUnused = false ↔ t.zeroUnused = false ∨ t.Empties c := by
  have hpopped : (t.call c).2.zeroUnused = false ↔
      t.zeroUnused = false ∨ ∃ u ∈ t.popped c, u.entries = [] := by
    cases c with
    | push x => simp [SeededStack.call, SeededStack.push, popped]
    | pop op =>
      rw [SeededStack.call, h.zeroUnused_pop]
      simp [popped]
    | apply op =>
      rw [← h.zeroUnused_without, SeededStack.call]
      rcases t.apply_cases op with ⟨-, x, happly⟩ | ⟨e, happly⟩
      · rw [happly]
        rfl
      · rw [happly]
  rw [hpopped, Empties]
  refine or_congr_right' fun hused => ?_
  rw [Bool.not_eq_false] at hused
  exact (and_iff_right (h.entries_ne_nil hused)).symm

theorem Sound.after (h : t.Sound) (calls : List Call) : (t.after calls).Sound := by
  induction calls generalizing t with
  | nil => exact h
  | cons c calls ih => exact ih (h.call c)

/-- Some call has taken the last entry. -/
def HasEmptied (t : SeededStack) (calls : List Call) : Prop :=
  ∃ earlier c, earlier ++ [c] <+: calls ∧ (t.after earlier).Empties c

theorem not_hasEmptied_nil (t : SeededStack) : ¬ t.HasEmptied [] := by
  simp [HasEmptied]

theorem hasEmptied_append_singleton_iff {calls : List Call} :
    t.HasEmptied (calls ++ [c]) ↔ t.HasEmptied calls ∨ (t.after calls).Empties c := by
  constructor
  · rintro ⟨earlier, d, hprefix, hempties⟩
    rcases List.prefix_concat_iff.1 hprefix with heq | hprefix
    · obtain ⟨rfl, rfl⟩ := List.append_singleton_inj.1 heq
      exact Or.inr hempties
    · exact Or.inl ⟨earlier, d, hprefix, hempties⟩
  · rintro (⟨earlier, d, hprefix, hempties⟩ | hempties)
    · exact ⟨earlier, d, List.prefix_concat_iff.2 (Or.inr hprefix), hempties⟩
    · exact ⟨calls, c, List.prefix_rfl, hempties⟩

/-- **The zero has been used if some call has taken the last entry**, and only then. -/
theorem Sound.zeroUnused_after (h : t.Sound) (calls : List Call) :
    (t.after calls).zeroUnused = false ↔ t.zeroUnused = false ∨ t.HasEmptied calls := by
  induction calls using List.reverseRecOn with
  | nil => exact (or_iff_left t.not_hasEmptied_nil).symm
  | append_singleton calls c ih =>
    rw [after_append_singleton, (h.after calls).zeroUnused_call, ih,
      hasEmptied_append_singleton_iff, or_assoc]

/-- A used zero stays used. -/
theorem zeroUnused_after_of_eq_false (h : t.zeroUnused = false) (calls : List Call) :
    (t.after calls).zeroUnused = false := by
  have hsound : t.Sound := fun hunused => absurd hunused (by simp [h])
  exact (hsound.zeroUnused_after calls).2 (Or.inl h)

/-! ## The result -/

theorem exists_finish_eq_ok_iff (t : SeededStack) :
    (∃ x, t.finish = .ok x) ↔ t.length = 1 ∨ t.length = 0 ∧ t.zeroUnused = true := by
  by_cases hstart : t.length = 0 ∧ t.zeroUnused = true
  · simp [finish, hstart]
  · have hif : (t.length == 0 && t.zeroUnused) = false := by
      simpa using hstart
    rw [finish, hif, or_iff_left hstart]
    by_cases hone : t.length = 1
    · cases hentries : t.entries with
      | nil => simp [SeededStack.length, hentries] at hone
      | cons x rest => simp [hone]
    · simp [hone]

end SeededStack

/-- **The accounts of an operand stack**, after any calls, failing ones included.  The stack
and its form as one list are the same, and so are they after every next call, which gives
both the same answer.  As long as the zero is unused it is the bottom entry, so that leaving
it out of the count never takes one from nothing.  It is used as soon as a call has taken the
last entry, not before, and it stays used.  Applying an operator replaces its operands by a
value, or it fails; then its operands are taken from the top, as far as there were any, and
the rest is as it was.  There is a result exactly if one entry counts, or none does and the
zero is unused. -/
theorem OperandStack.after_accounted (calls : List Call) :
    let s := ({} : OperandStack).after calls
    let t := ({} : SeededStack).after calls
    (t = s.seeded ∧ t.length = s.length ∧ t.finish = s.finish ∧
        ∀ c, t.call c = ((s.call c).1, (s.call c).2.seeded)) ∧
      (t.zeroUnused = true → ∃ above, t.entries = above ++ [0]) ∧
      t.zeroUnused.toNat ≤ t.entries.length ∧
      (t.zeroUnused = false ↔ ({} : SeededStack).HasEmptied calls) ∧
      (t.zeroUnused = false → ∀ later, (t.after later).zeroUnused = false) ∧
      (∀ op, (t.apply op).1 = .ok () →
        op.arity ≤ t.entries.length ∧
          ∃ x, (t.apply op).2.entries = x :: t.entries.drop op.arity) ∧
      (∀ op e, (t.apply op).1 = .error e →
        (t.apply op).2.entries = t.entries.drop (min op.arity t.entries.length)) ∧
      ((∃ x, t.finish = .ok x) ↔ t.length = 1 ∨ t.length = 0 ∧ t.zeroUnused = true) := by
  intro s t
  have hsame : t = s.seeded := ({} : OperandStack).after_seeded calls
  have hsound : t.Sound := SeededStack.sound_start.after calls
  have hused : t.zeroUnused = false ↔ ({} : SeededStack).HasEmptied calls := by
    rw [SeededStack.sound_start.zeroUnused_after calls]
    exact or_iff_right (by decide)
  refine ⟨⟨hsame, ?_, ?_, fun c => ?_⟩, hsound, hsound.toNat_le, hused,
    SeededStack.zeroUnused_after_of_eq_false, fun op => SeededStack.entries_apply_of_ok,
    fun op e => SeededStack.entries_apply_of_error, t.exists_finish_eq_ok_iff⟩
  · rw [hsame, length_seeded]
  · rw [hsame, finish_seeded]
  · rw [hsame]
    exact s.call_seeded c

-- Of two divisions that fail, the first takes both values and leaves the zero; the second
-- takes the zero as its right operand and finds no left one.
example : ({} : SeededStack).after
    [.push 1, .push 0, .apply (.binary .divide), .apply (.binary .divide)] =
      { entries := [], zeroUnused := false } := by decide +kernel

end ReversePolish
end DeskCalculator
