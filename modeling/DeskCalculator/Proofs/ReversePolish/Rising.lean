import Mathlib.Data.List.Chain
import DeskCalculator.Proofs.ReversePolish.Permutation

/-!
# Waiting operators bind tighter towards the top

An operator comes to wait only when those above which it will wait bind less
tightly, or else belong to an outer group.  So the operators of a group bind
strictly tighter from the bottom to the top (`rising_words`), and those that stay
when others are released bind less tightly than what released these
(`lt_of_release`).
-/

namespace DeskCalculator
namespace ReversePolish

/-- If both entries are operators, the upper one binds tighter. -/
def BindsTighter : Pending → Pending → Prop
  | .operator upper, .operator lower => lower.precedence < upper.precedence
  | _, _ => True

/-- Of two operators that wait one right above the other, the upper one binds tighter. -/
def Rising (stack : List Pending) : Prop :=
  stack.IsChain BindsTighter

variable {precedence : Nat} {stack rest : List Pending} {op : Operator} {c next : Conversion}

theorem rising_nil : Rising [] :=
  List.IsChain.nil

theorem rising_of_append {upper lower : List Pending} (h : Rising (upper ++ lower)) :
    Rising lower :=
  (List.isChain_append.1 h).2.1

/-- In a rising stack an operator binds less tightly than the one on top of its group. -/
theorem Rising.lt_top {ops : List Operator} {top : Operator}
    (h : Rising (.operator top :: (waiting ops ++ .operator op :: rest))) :
    op.precedence < top.precedence := by
  induction ops generalizing top with
  | nil => exact (List.isChain_cons_cons.1 h).1
  | cons second ops ih =>
    obtain ⟨hlt, hrest⟩ := List.isChain_cons_cons.1 h
    exact Nat.lt_trans (ih hrest) hlt

/-! ## Releasing -/

/-- Releasing stops at an operator that binds less tightly. -/
theorem lt_of_release_eq_cons (h : (release precedence stack).2 = .operator op :: rest) :
    op.precedence < precedence := by
  induction stack with
  | nil => cases h
  | cons entry stack ih =>
    cases entry with
    | group position => cases h
    | operator other =>
      rw [release] at h
      split at h
      · exact ih h
      · rename_i hlt
        cases h
        exact Nat.not_le.1 hlt

/-- What is released binds at least as tightly. -/
theorem le_of_mem_release (h : op ∈ (release precedence stack).1) :
    precedence ≤ op.precedence := by
  induction stack with
  | nil => cases h
  | cons entry stack ih =>
    cases entry with
    | group position => cases h
    | operator other =>
      rw [release] at h
      split at h
      · rename_i hle
        rcases List.mem_cons.1 h with rfl | h
        · exact hle
        · exact ih h
      · cases h

theorem rising_release (h : Rising stack) (precedence : Nat) :
    Rising (release precedence stack).2 := by
  rw [release_eq precedence stack] at h
  exact rising_of_append h

/-- **What stays of the innermost group binds less tightly** than what released the
others. -/
theorem lt_of_release {ops : List Operator} (h : Rising stack)
    (hkept : (release precedence stack).2 = waiting ops ++ .operator op :: rest) :
    op.precedence < precedence := by
  have hrising := rising_release h precedence
  cases ops with
  | nil => exact lt_of_release_eq_cons hkept
  | cons top ops =>
    rw [hkept] at hrising
    exact Nat.lt_trans hrising.lt_top (lt_of_release_eq_cons hkept)

/-! ## Steps and runs -/

namespace Conversion

theorem rising_operator (h : Rising c.pending) (op : Operator) :
    Rising (c.operator op).pending := by
  rw [pending_operator]
  refine List.isChain_cons.2 ⟨?_, rising_release h op.precedence⟩
  intro entry hentry
  cases entry with
  | group position => trivial
  | operator other =>
    obtain ⟨rest, hrest⟩ := List.head?_eq_some_iff.1 hentry
    exact lt_of_release_eq_cons hrest

theorem rising_group (position : Nat) (h : Rising stack) : Rising (.group position :: stack) :=
  List.isChain_cons.2 ⟨fun entry _ => by cases entry <;> trivial, h⟩

/-- A token leaves the stack rising. -/
theorem rising_token {position : Nat} {t : Token} (h : Rising c.pending)
    (hnext : c.token position t = .ok next) : Rising next.pending := by
  cases t with
  | number x =>
    cases hnext
    exact h
  | operator op =>
    cases hnext
    exact rising_operator h op
  | leftParenthesis =>
    cases hnext
    exact rising_group position h
  | rightParenthesis =>
    obtain ⟨ops, opening, rest, hpending, rfl⟩ := exists_write_of_closeGroup hnext
    rw [hpending, List.append_cons] at h
    exact rising_of_append h

/-- **So do words.** -/
theorem rising_words {position : Nat} {ws : List (List Char)} (h : Rising c.pending)
    (hnext : c.words position ws = .ok next) : Rising next.pending := by
  induction ws generalizing c position with
  | nil =>
    cases hnext
    exact h
  | cons word ws ih =>
    obtain ⟨t, ht⟩ := exists_token_of_words hnext word (List.mem_cons_self ..)
    rw [words_cons ht] at hnext
    cases hstep : c.token position t with
    | error e =>
      rw [hstep] at hnext
      cases hnext
    | ok second =>
      rw [hstep] at hnext
      exact ih (rising_token h hstep) hnext

end Conversion
end ReversePolish
end DeskCalculator
