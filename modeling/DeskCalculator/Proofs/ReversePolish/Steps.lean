import Mathlib.Data.List.Perm.Subperm
import DeskCalculator.Proofs.ReversePolish.Rising

/-!
# Steps in any order

Groups are opened and closed and operators are added in any order, and a group may be
closed where none is open.  After every step the operators of a group bind strictly
tighter towards the top, so that there are at most three (`length_le_three`); the output
has only been extended (`exists_output_step`); and what has been written and what still
waits are the operators that have been added (`content_run`).  A step that fails leaves
nothing that waits, and all is written (`run_invariant`).
-/

namespace DeskCalculator
namespace ReversePolish

variable {precedence : Nat} {stack : List Pending} {ops : List Operator}

/-! ## The operators of a group -/

/-- Operators that wait side by side bind less and less tightly from the top. -/
theorem Rising.pairwise (h : Rising stack) (hops : waiting ops <:+: stack) :
    (ops.map Operator.precedence).Pairwise (· > ·) := by
  have hchain : (waiting ops).IsChain BindsTighter := h.infix hops
  rw [← List.isChain_iff_pairwise, List.isChain_map]
  rw [waiting, List.isChain_map] at hchain
  exact hchain

/-- There are three precedences. -/
theorem precedence_mem (op : Operator) : op.precedence ∈ [1, 2, 3] := by
  rcases op with ⟨op⟩ | _
  · cases op <;> decide
  · decide

/-- **At most three operators wait in a group.** -/
theorem Rising.length_le_three (h : Rising stack) (hops : waiting ops <:+: stack) :
    ops.length ≤ 3 := by
  have hnodup : (ops.map Operator.precedence).Nodup := (h.pairwise hops).imp Nat.ne_of_gt
  have hsubset : ops.map Operator.precedence ⊆ [1, 2, 3] := by
    intro precedence hmem
    obtain ⟨op, -, rfl⟩ := List.mem_map.1 hmem
    exact precedence_mem op
  have hlength := (List.subperm_of_subset hnodup hsubset).length_le
  rwa [List.length_map] at hlength

/-! ## Steps -/

/-- What can be done to the waiting operators, apart from finishing. -/
inductive Step where
  /-- A group opens at a position. -/
  | openGroup (position : Nat)
  /-- The innermost group closes at a position, if there is one. -/
  | closeGroup (position : Nat)
  /-- An operator is added. -/
  | operator (op : Operator)
  deriving DecidableEq, Repr

/-- The operator that a step adds. -/
def Step.operator? : Step → Option Operator
  | .openGroup _ | .closeGroup _ => none
  | .operator op => some op

/-- The operators that steps add, in order. -/
def added (steps : List Step) : List Operator :=
  steps.filterMap Step.operator?

theorem added_append (earlier later : List Step) :
    added (earlier ++ later) = added earlier ++ added later :=
  List.filterMap_append

namespace Conversion

/-- A step, and the conversion that it leaves even if it fails. -/
def step (c : Conversion) : Step → Except ParseError Unit × Conversion
  | .openGroup position => (.ok (), c.openGroup position)
  | .closeGroup position => c.closeGroup position
  | .operator op => (.ok (), c.operator op)

/-- The conversion after steps one after the other, failing ones included. -/
def run (c : Conversion) (steps : List Step) : Conversion :=
  steps.foldl (fun c s => (c.step s).2) c

theorem run_append_singleton (c : Conversion) (steps : List Step) (s : Step) :
    c.run (steps ++ [s]) = ((c.run steps).step s).2 :=
  List.foldl_concat ..

variable {c : Conversion}

/-- Closing either ends the innermost group or, where no group is open, writes all. -/
theorem closeGroup_cases (c : Conversion) (position : Nat) :
    (∃ ops opening rest, c.pending = waiting ops ++ .group opening :: rest ∧
        c.closeGroup position = (.ok (), c.write ops rest)) ∨
      ∃ ops, c.pending = waiting ops ∧
        c.closeGroup position = (.error (.unbalancedParenthesis position), c.write ops []) := by
  cases hgroups : openGroups c.pending with
  | nil =>
    obtain ⟨ops, hpending⟩ := exists_waiting_of_openGroups_eq_nil hgroups
    refine Or.inr ⟨ops, hpending, ?_⟩
    rw [closeGroup, hpending, releaseGroup_waiting]
  | cons opening outer =>
    obtain ⟨ops, rest, hpending, -, hclose⟩ := closeGroup_of_openGroups hgroups position
    exact Or.inl ⟨ops, opening, rest, hpending, hclose⟩

/-! ## What a step keeps -/

theorem rising_step (h : Rising c.pending) (s : Step) : Rising (c.step s).2.pending := by
  cases s with
  | openGroup position => exact rising_group position h
  | operator op => exact rising_operator h op
  | closeGroup position =>
    rcases c.closeGroup_cases position with
      ⟨ops, opening, rest, hpending, hclose⟩ | ⟨ops, -, hclose⟩
    · rw [hpending, List.append_cons] at h
      rw [step, hclose]
      exact rising_of_append h
    · rw [step, hclose]
      exact rising_nil

/-- A step only adds operators to the output. -/
theorem exists_output_step (c : Conversion) (s : Step) :
    ∃ ops : List Operator, (c.step s).2.output = c.output ++ ops.map .operator := by
  cases s with
  | openGroup position => exact ⟨[], (List.append_nil _).symm⟩
  | operator op => exact ⟨_, c.output_operator op⟩
  | closeGroup position =>
    rcases c.closeGroup_cases position with ⟨ops, opening, rest, -, hclose⟩ | ⟨ops, -, hclose⟩
    · exact ⟨ops, by rw [step, hclose, output_write]⟩
    · exact ⟨ops, by rw [step, hclose, output_write]⟩

/-- A step adds its operator to what is written or waits, and loses nothing. -/
theorem content_step (c : Conversion) (s : Step) :
    (c.step s).2.content.Perm (c.content ++ (added [s]).map .operator) := by
  cases s with
  | openGroup position => exact List.Perm.of_eq (List.append_nil _).symm
  | operator op => exact c.content_operator op
  | closeGroup position =>
    have hcontent : (c.step (.closeGroup position)).2.content = c.content := by
      rcases c.closeGroup_cases position with
        ⟨ops, opening, rest, hpending, hclose⟩ | ⟨ops, hpending, hclose⟩
      · rw [step, hclose]
        exact content_write hpending (operators_group opening rest)
      · have hall : c.pending = waiting ops ++ [] := by rw [hpending, List.append_nil]
        rw [step, hclose]
        exact content_write hall rfl
    rw [hcontent]
    exact List.Perm.of_eq (List.append_nil _).symm

/-- A step that fails closes a group where none is open, and nothing waits any more. -/
theorem step_eq_error {s : Step} {e : ParseError} (h : (c.step s).1 = .error e) :
    ∃ position, s = .closeGroup position ∧ e = .unbalancedParenthesis position ∧
      openGroups c.pending = [] ∧ (c.step s).2.pending = [] := by
  cases s with
  | openGroup position => cases h
  | operator op => cases h
  | closeGroup position =>
    rcases c.closeGroup_cases position with
      ⟨ops, opening, rest, -, hclose⟩ | ⟨ops, hpending, hclose⟩
    · rw [step, hclose] at h
      cases h
    · rw [step, hclose] at h ⊢
      cases h
      refine ⟨position, rfl, rfl, ?_, rfl⟩
      rw [hpending, openGroups_waiting]

/-! ## What a run keeps -/

theorem rising_run (h : Rising c.pending) (steps : List Step) : Rising (c.run steps).pending := by
  induction steps generalizing c with
  | nil => exact h
  | cons s steps ih => exact ih (rising_step h s)

/-- **Nothing is lost and nothing is added twice.** -/
theorem content_run (c : Conversion) (steps : List Step) :
    (c.run steps).content.Perm (c.content ++ (added steps).map .operator) := by
  induction steps generalizing c with
  | nil => exact List.Perm.of_eq (List.append_nil _).symm
  | cons s steps ih =>
    have hadded : added (s :: steps) = added [s] ++ added steps := added_append [s] steps
    have hlater := (ih (c.step s).2).trans ((content_step c s).append_right _)
    rwa [List.append_assoc, ← List.map_append, ← hadded] at hlater

/-- The output grows by operators, and these with those that wait are the ones added. -/
theorem exists_output_run (start : List Token) (steps : List Step) :
    ∃ ops : List Operator,
      (({ written := start } : Conversion).run steps).output =
          start.reverse ++ ops.map .operator ∧
        (ops ++ operators (({ written := start } : Conversion).run steps).pending).Perm
          (added steps) := by
  have hgrows (c : Conversion) (steps : List Step) :
      ∃ ops : List Operator, (c.run steps).output = c.output ++ ops.map .operator := by
    induction steps generalizing c with
    | nil => exact ⟨[], (List.append_nil _).symm⟩
    | cons s steps ih =>
      obtain ⟨first, hfirst⟩ := c.exists_output_step s
      obtain ⟨later, hlater⟩ := ih (c.step s).2
      refine ⟨first ++ later, ?_⟩
      rw [List.map_append, ← List.append_assoc, ← hfirst]
      exact hlater
  obtain ⟨ops, houtput⟩ := hgrows { written := start } steps
  refine ⟨ops, houtput, ?_⟩
  have hcontent := content_run { written := start } steps
  rw [content, houtput, List.append_assoc, ← List.map_append] at hcontent
  have hstart : ({ written := start } : Conversion).content = start.reverse :=
    List.append_nil _
  have houtput' : ({ written := start } : Conversion).output = start.reverse := rfl
  rw [hstart, houtput', List.perm_append_left_iff] at hcontent
  exact (List.map_perm_map_iff fun a b h => Token.operator.inj h).1 hcontent

/-- **The invariant of the waiting operators**, on an output that may already hold
tokens.  After any steps, failing ones included, operators that wait side by side bind
strictly tighter towards the top, and there are at most three of them.  The output has
only been extended by operators, which together with those that wait are the ones added,
each once.  A step fails exactly where it closes a group and none is open; then nothing
waits any more, and all operators are in the output. -/
theorem run_invariant (start : List Token) (steps : List Step) :
    let c := ({ written := start } : Conversion).run steps
    (∀ ops, waiting ops <:+: c.pending →
        (ops.map Operator.precedence).Pairwise (· > ·) ∧ ops.length ≤ 3) ∧
      (∃ ops : List Operator, c.output = start.reverse ++ ops.map .operator ∧
        (ops ++ operators c.pending).Perm (added steps)) ∧
      ∀ s, c.output <+: (c.step s).2.output ∧
        ((∃ e, (c.step s).1 = .error e) ↔
          (∃ position, s = .closeGroup position) ∧ openGroups c.pending = []) ∧
        ∀ e, (c.step s).1 = .error e →
          (∃ position, s = .closeGroup position ∧ e = .unbalancedParenthesis position) ∧
          (c.step s).2.pending = [] ∧
          ∃ ops : List Operator, (c.step s).2.output = start.reverse ++ ops.map .operator ∧
            ops.Perm (added steps) := by
  intro c
  have hrising : Rising c.pending := rising_run rising_nil steps
  refine ⟨fun ops hops => ⟨hrising.pairwise hops, hrising.length_le_three hops⟩,
    exists_output_run start steps, fun s => ⟨?_, ⟨?_, ?_⟩, ?_⟩⟩
  · obtain ⟨ops, houtput⟩ := c.exists_output_step s
    exact ⟨_, houtput.symm⟩
  · rintro ⟨e, he⟩
    obtain ⟨position, hs, -, hgroups, -⟩ := step_eq_error he
    exact ⟨⟨position, hs⟩, hgroups⟩
  · rintro ⟨⟨position, rfl⟩, hgroups⟩
    obtain ⟨ops, hpending⟩ := exists_waiting_of_openGroups_eq_nil hgroups
    refine ⟨.unbalancedParenthesis position, ?_⟩
    rw [step, closeGroup, hpending, releaseGroup_waiting]
  · intro e he
    obtain ⟨position, rfl, rfl, -, hpending⟩ := step_eq_error he
    obtain ⟨ops, houtput, hperm⟩ := exists_output_run start (steps ++ [.closeGroup position])
    rw [run_append_singleton] at houtput hperm
    refine ⟨⟨position, rfl, rfl⟩, hpending, ops, houtput, ?_⟩
    rwa [hpending, operators_nil, List.append_nil, added_append, added, added,
      List.filterMap_cons_none rfl, List.filterMap_nil, List.append_nil] at hperm

end Conversion
end ReversePolish
end DeskCalculator
