import Mathlib.Order.Nat
import Mathlib.Tactic.Tauto
import DeskCalculator.Proofs.ReversePolish.Parentheses
import DeskCalculator.Proofs.ReversePolish.Permutation
import DeskCalculator.Proofs.Token.Reading

/-!
# How long operators wait

An operator waits until an operator that binds no tighter is read in the same group, or
else until the group ends (`WaitsUntil`).  Which of two words is written first is decided
when the later one is read: the earlier one has been written by then, or it waits and
comes behind.  So the positions of the words that have been read make up one list, into
which a word that is read is inserted, behind all that is released by then, and in which
nothing else ever moves (`InOrder`).
-/

namespace DeskCalculator
namespace ReversePolish

open Parentheses (Balanced openings)
open scoped List

variable {ws : List (List Char)} {i j n : Nat}

/-! ## Words at positions -/

/-- The token that the word at a position stands for. -/
def tokenAt (ws : List (List Char)) (i : Nat) : Option Token :=
  ws[i]?.bind Token.ofWord?

/-- Is the word at the position a number or an operator? -/
def isWrittenAt (ws : List (List Char)) (i : Nat) : Bool :=
  (tokenAt ws i).any fun t => !t.isParenthesis

/-- The positions of the numbers and operators. -/
def writtenPositions (ws : List (List Char)) : List Nat :=
  (List.range ws.length).filter (isWrittenAt ws)

/-- The words behind one position and before another. -/
def between (ws : List (List Char)) (i k : Nat) : List (List Char) :=
  (ws.take k).drop (i + 1)

/-- The position `k` lies behind `i` in the same group, not in a group inside it. -/
def InGroup (ws : List (List Char)) (i k : Nat) : Prop :=
  i < k ∧ Balanced (between ws i k)

/-- What stands at the position releases an operator of its group. -/
inductive Releases (ws : List (List Char)) (op : Operator) (k : Nat) : Prop where
  /-- An operator that binds no tighter. -/
  | operator {other : Operator} : tokenAt ws k = some (.operator other) →
      other.precedence ≤ op.precedence → Releases ws op k
  /-- The end of the group. -/
  | close : tokenAt ws k = some .rightParenthesis → Releases ws op k
  /-- The end of the text. -/
  | finish : k = ws.length → Releases ws op k

/-- The operator at the position `i` waits until the first position in its group at which
it is released. -/
def WaitsUntil (ws : List (List Char)) (i : Nat) (op : Operator) (e : Nat) : Prop :=
  IsLeast {k | InGroup ws i k ∧ Releases ws op k} e

theorem tokenAt_eq_some {t : Token} (h : tokenAt ws i = some t) :
    ∃ word, ws[i]? = some word ∧ Token.ofWord? word = some t :=
  Option.bind_eq_some_iff.1 h

theorem lt_length_of_tokenAt {t : Token} (h : tokenAt ws i = some t) : i < ws.length := by
  obtain ⟨word, hword, -⟩ := tokenAt_eq_some h
  exact (List.getElem?_eq_some_iff.1 hword).1

theorem isWrittenAt_of_tokenAt {t : Token} (h : tokenAt ws i = some t) :
    isWrittenAt ws i = !t.isParenthesis := by
  rw [isWrittenAt, h]
  rfl

theorem isWrittenAt_of_operator {op : Operator} (h : tokenAt ws i = some (.operator op)) :
    isWrittenAt ws i = true :=
  isWrittenAt_of_tokenAt h

/-- A word that releases operators is an operator or a closing parenthesis. -/
theorem Releases.token {op : Operator} {t : Token} (h : Releases ws op n)
    (hn : tokenAt ws n = some t) :
    t = .rightParenthesis ∨ ∃ other, t = .operator other ∧ other.precedence ≤ op.precedence := by
  rcases h with ⟨hother, hle⟩ | hclose | rfl
  · rw [hn] at hother
    exact Or.inr ⟨_, Option.some.inj hother, hle⟩
  · rw [hn] at hclose
    exact Or.inl (Option.some.inj hclose)
  · exact absurd (lt_length_of_tokenAt hn) (Nat.lt_irrefl _)

/-- One word more between two positions. -/
theorem between_succ {word : List Char} (hi : i < n) (hword : ws[n]? = some word) :
    between ws i (n + 1) = between ws i n ++ [word] := by
  obtain ⟨hlt, -⟩ := List.getElem?_eq_some_iff.1 hword
  have hlength : i + 1 ≤ (ws.take n).length := by
    rw [List.length_take]
    omega
  rw [between, between, List.take_add_one, hword]
  exact List.drop_append_of_le_length hlength

theorem openings_between_succ {word : List Char} (hi : i < n) (hword : ws[n]? = some word)
    (waiting : List Nat) :
    openings waiting (i + 1) (between ws i (n + 1)) =
      openings (openings waiting (i + 1) (between ws i n)) n [word] := by
  obtain ⟨hlt, -⟩ := List.getElem?_eq_some_iff.1 hword
  have hposition : i + 1 + (between ws i n).length = n := by
    rw [between, List.length_drop, List.length_take]
    omega
  rw [between_succ hi hword, Parentheses.openings_append, hposition]

/-! ## Words that have been released -/

/-- An operator at the position has been released by the first `n` words. -/
def Released (ws : List (List Char)) (i n : Nat) : Prop :=
  ∀ op, tokenAt ws i = some (.operator op) → ∃ k < n, InGroup ws i k ∧ Releases ws op k

theorem Released.mono {m : Nat} (h : Released ws i n) (hle : n ≤ m) : Released ws i m := by
  intro op hop
  obtain ⟨k, hk, hreleases⟩ := h op hop
  exact ⟨k, Nat.lt_of_lt_of_le hk hle, hreleases⟩

/-- A number never waits. -/
theorem released_of_number {x : Float} (h : tokenAt ws i = some (.number x)) (n : Nat) :
    Released ws i n := by
  intro op hop
  rw [h] at hop
  cases hop

/-- One word more releases an operator of its own group alone. -/
theorem not_released_succ (h : ¬ Released ws i n)
    (hlast : ∀ op, tokenAt ws i = some (.operator op) → InGroup ws i n → ¬ Releases ws op n) :
    ¬ Released ws i (n + 1) := by
  intro hreleased
  refine h fun op hop => ?_
  obtain ⟨k, hk, hgroup, hreleases⟩ := hreleased op hop
  rcases Nat.lt_succ_iff_lt_or_eq.1 hk with hk | rfl
  · exact ⟨k, hk, hgroup, hreleases⟩
  · exact absurd hreleases (hlast op hop hgroup)

/-- An operator that has just been read is not released yet. -/
theorem not_released_self {op : Operator} (h : tokenAt ws n = some (.operator op)) :
    ¬ Released ws n (n + 1) := by
  intro hreleased
  obtain ⟨k, hk, ⟨hlt, -⟩, -⟩ := hreleased op h
  omega

namespace WaitsUntil

variable {op : Operator} {e : Nat}

/-- An operator that is released at some position has a first such position. -/
theorem exists_of_releases {k : Nat} (hgroup : InGroup ws i k) (hreleases : Releases ws op k) :
    ∃ e, WaitsUntil ws i op e := by
  classical
  exact ⟨_, Nat.isLeast_find ⟨k, hgroup, hreleases⟩⟩

/-- Words release an operator exactly if its wait ends among them. -/
theorem released_iff (h : WaitsUntil ws i op e) (hop : tokenAt ws i = some (.operator op)) :
    Released ws i (n + 1) ↔ e ≤ n := by
  constructor
  · intro hreleased
    obtain ⟨k, hk, hgroup, hreleases⟩ := hreleased op hop
    exact Nat.le_trans (h.2 ⟨hgroup, hreleases⟩) (Nat.le_of_lt_succ hk)
  · intro hle other hother
    obtain rfl : op = other := by simpa [hop] using hother
    exact ⟨e, Nat.lt_succ_of_le hle, h.1.1, h.1.2⟩

end WaitsUntil

/-! ## Inserting a position -/

section Pairs

variable {first second : List Nat}

/-- Inserting an element leaves the order of the others alone. -/
theorem pair_sublist_insert (hi : i ≠ n) (hj : j ≠ n) :
    [i, j] <+ first ++ n :: second ↔ [i, j] <+ first ++ second := by
  constructor
  · intro h
    have hfilter := h.filter fun k => k != n
    have hpair : [i, j].filter (fun k => k != n) = [i, j] := by simp [hi, hj]
    rw [hpair, List.filter_append, List.filter_cons_of_neg (by simp),
      ← List.filter_append] at hfilter
    exact hfilter.trans List.filter_sublist
  · intro h
    exact h.trans ((List.sublist_cons_self n second).append_left first)

/-- Before an element that is inserted stand those of the first part. -/
theorem pair_sublist_last (hi : i ≠ n) (hfirst : n ∉ first) (hsecond : n ∉ second) :
    [i, n] <+ first ++ n :: second ↔ i ∈ first := by
  constructor
  · intro h
    obtain ⟨left, right, hpair, hleft, hright⟩ := List.sublist_append_iff.1 h
    match left, hpair with
    | [], hpair =>
      rw [List.nil_append] at hpair
      subst hpair
      cases hright with
      | cons _ hright => exact absurd (hright.subset (by simp)) hsecond
      | cons_cons _ hright => exact absurd rfl hi
    | [k], hpair =>
      obtain ⟨rfl, -⟩ := List.cons.inj hpair
      exact hleft.subset (List.mem_singleton_self _)
    | k :: l :: _, hpair =>
      obtain ⟨-, hpair⟩ := List.cons.inj hpair
      obtain ⟨rfl, -⟩ := List.cons.inj hpair
      exact absurd (hleft.subset (by simp)) hfirst
  · intro h
    exact (List.singleton_sublist.2 h).append (List.singleton_sublist.2 (List.mem_cons_self ..))

end Pairs

/-- The positions written or waiting among the first `n`, so ordered that of two of them
the earlier comes first exactly if it has been released when the later is read. -/
structure InOrder (ws : List (List Char)) (n : Nat) (l : List Nat) : Prop where
  /-- Each number and each operator has its place. -/
  perm : l.Perm ((List.range n).filter (isWrittenAt ws))
  /-- Whatever is not released comes behind. -/
  before : ∀ i ∈ l, ∀ j ∈ l, i < j → ([i, j] <+ l ↔ Released ws i (j + 1))

namespace InOrder

variable {l first second : List Nat}

theorem lt (h : InOrder ws n l) (hi : i ∈ l) : i < n :=
  List.mem_range.1 (List.mem_filter.1 (h.perm.mem_iff.1 hi)).1

/-- A parenthesis has no place. -/
theorem skip (h : InOrder ws n l) (hn : isWrittenAt ws n = false) : InOrder ws (n + 1) l where
  perm := by
    rw [List.range_succ, List.filter_append, List.filter_cons_of_neg (by simp [hn])]
    simpa using h.perm
  before := h.before

/-- A number or an operator that is read is inserted behind all that has been released. -/
theorem insert (h : InOrder ws n (first ++ second)) (hn : isWrittenAt ws n)
    (hfirst : ∀ i ∈ first, Released ws i (n + 1))
    (hsecond : ∀ i ∈ second, ¬ Released ws i (n + 1)) :
    InOrder ws (n + 1) (first ++ n :: second) where
  perm := by
    rw [List.range_succ, List.filter_append, List.filter_cons_of_pos hn]
    exact List.perm_middle.trans ((h.perm.cons n).trans (List.perm_append_singleton ..).symm)
  before := by
    have hnew : n ∉ first ++ second := fun hmem => Nat.lt_irrefl n (h.lt hmem)
    have hold {k : Nat} (hk : k ∈ first ++ n :: second) (hne : k ≠ n) : k ∈ first ++ second := by
      simp only [List.mem_append, List.mem_cons] at hk ⊢
      tauto
    intro i hi j hj hlt
    by_cases hjn : j = n
    · subst hjn
      have hmem := hold hi (Nat.ne_of_lt hlt)
      rw [List.mem_append, not_or] at hnew
      rw [pair_sublist_last (Nat.ne_of_lt hlt) hnew.1 hnew.2]
      refine ⟨hfirst i, fun hreleased => ?_⟩
      exact (List.mem_append.1 hmem).resolve_right fun hi => hsecond i hi hreleased
    · have hjold := hold hj hjn
      have hin : i ≠ n := Nat.ne_of_lt (Nat.lt_trans hlt (h.lt hjold))
      rw [pair_sublist_insert hin hjn]
      exact h.before i (hold hi hin) j hjold hlt

end InOrder

end ReversePolish
end DeskCalculator
