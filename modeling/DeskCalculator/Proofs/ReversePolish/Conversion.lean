import DeskCalculator.ReversePolish.Conversion

/-!
# What a conversion releases

Operators that wait above the others are released together, in the order of the
stack (`release_append`, `releaseGroup_append`), and nothing that waits is ever
lost: the stack consists of what is released and what is kept (`release_eq`,
`releaseGroup_eq_none`, `releaseGroup_eq_some`).  So closing fails exactly where no
group is open, and finishing where one is (`closeGroup_of_openGroups`, `finish_eq`).
Words are read one after the other (`words_append`).
-/

namespace DeskCalculator
namespace ReversePolish

/-! ## Releasing -/

/-- Waiting operators, as a stack of their own. -/
def waiting (ops : List Operator) : List Pending :=
  ops.map .operator

@[simp] theorem waiting_cons (op : Operator) (ops : List Operator) :
    waiting (op :: ops) = .operator op :: waiting ops := rfl

@[simp] theorem waiting_append (ops others : List Operator) :
    waiting (ops ++ others) = waiting ops ++ waiting others :=
  List.map_append

/-- Operators that bind tightly enough are released before all below them. -/
theorem release_append {precedence : Nat} {ops : List Operator}
    (h : ∀ op ∈ ops, precedence ≤ op.precedence) (stack : List Pending) :
    release precedence (waiting ops ++ stack) =
      (ops ++ (release precedence stack).1, (release precedence stack).2) := by
  induction ops with
  | nil => rfl
  | cons op ops ih =>
    have hop : precedence ≤ op.precedence := h op (List.mem_cons_self ..)
    have hrest := ih fun o ho => h o (List.mem_cons_of_mem _ ho)
    rw [waiting_cons, List.cons_append, release, if_pos hop, hrest]
    rfl

/-- Operators above an open group are released before all below them. -/
theorem releaseGroup_append (ops : List Operator) (stack : List Pending) :
    releaseGroup (waiting ops ++ stack) =
      (ops ++ (releaseGroup stack).1, (releaseGroup stack).2) := by
  induction ops with
  | nil => rfl
  | cons op ops ih =>
    rw [waiting_cons, List.cons_append, releaseGroup, ih]
    rfl

theorem releaseGroup_waiting (ops : List Operator) : releaseGroup (waiting ops) = (ops, none) := by
  have happend : releaseGroup (waiting ops ++ []) = (ops ++ [], none) := releaseGroup_append ops []
  rwa [List.append_nil, List.append_nil] at happend

theorem releaseGroup_waiting_group (ops : List Operator) (position : Nat)
    (rest : List Pending) :
    releaseGroup (waiting ops ++ .group position :: rest) = (ops, some (position, rest)) := by
  have happend : _ = (ops ++ [], some (position, rest)) :=
    releaseGroup_append ops (.group position :: rest)
  rwa [List.append_nil] at happend

/-- What is released and what is kept make up the stack. -/
theorem release_eq (precedence : Nat) (stack : List Pending) :
    stack = waiting (release precedence stack).1 ++ (release precedence stack).2 := by
  induction stack with
  | nil => rfl
  | cons entry stack ih =>
    cases entry with
    | group position => rfl
    | operator op =>
      rw [release]
      split
      · simpa using ih
      · rfl

/-- Without an open group the stack holds operators only, and all are released. -/
theorem releaseGroup_eq_none {stack : List Pending} (h : (releaseGroup stack).2 = none) :
    stack = waiting (releaseGroup stack).1 := by
  induction stack with
  | nil => rfl
  | cons entry stack ih =>
    cases entry with
    | group position => cases h
    | operator op =>
      have hrest : stack = waiting (releaseGroup stack).1 := ih h
      rw [releaseGroup]
      exact congrArg (Pending.operator op :: ·) hrest

/-- Above the innermost open group the stack holds operators only, and these are
released. -/
theorem releaseGroup_eq_some {stack rest : List Pending} {position : Nat}
    (h : (releaseGroup stack).2 = some (position, rest)) :
    stack = waiting (releaseGroup stack).1 ++ .group position :: rest := by
  induction stack with
  | nil => cases h
  | cons entry stack ih =>
    cases entry with
    | group p =>
      cases h
      rfl
    | operator op =>
      have hrest : stack = waiting (releaseGroup stack).1 ++ .group position :: rest := ih h
      rw [releaseGroup]
      exact congrArg (Pending.operator op :: ·) hrest

/-! ## Open groups -/

/-- The position of an entry that is an open group. -/
def Pending.position? : Pending → Option Nat
  | .group position => some position
  | .operator _ => none

/-- The positions of the open groups of a stack, the innermost first. -/
def openGroups (stack : List Pending) : List Nat :=
  stack.filterMap Pending.position?

@[simp] theorem openGroups_waiting_append (ops : List Operator) (stack : List Pending) :
    openGroups (waiting ops ++ stack) = openGroups stack := by
  induction ops with
  | nil => rfl
  | cons op ops ih => exact ih

theorem openGroups_waiting (ops : List Operator) : openGroups (waiting ops) = [] := by
  have happend := openGroups_waiting_append ops []
  rw [List.append_nil] at happend
  exact happend

theorem openGroups_group (position : Nat) (stack : List Pending) :
    openGroups (.group position :: stack) = position :: openGroups stack := rfl

theorem openGroups_release (precedence : Nat) (stack : List Pending) :
    openGroups (release precedence stack).2 = openGroups stack := by
  have hstack : openGroups stack = _ := congrArg openGroups (release_eq precedence stack)
  rw [hstack, openGroups_waiting_append]

/-- Without an open group only operators wait. -/
theorem exists_waiting_of_openGroups_eq_nil {stack : List Pending} (h : openGroups stack = []) :
    ∃ ops, stack = waiting ops := by
  cases hfound : (releaseGroup stack).2 with
  | none => exact ⟨(releaseGroup stack).1, releaseGroup_eq_none hfound⟩
  | some found =>
    obtain ⟨position, rest⟩ := found
    rw [releaseGroup_eq_some hfound, openGroups_waiting_append, openGroups_group] at h
    cases h

/-- Above the innermost open group only operators wait. -/
theorem exists_waiting_of_openGroups_eq_cons {stack : List Pending} {position : Nat}
    {outer : List Nat} (h : openGroups stack = position :: outer) :
    ∃ ops rest, stack = waiting ops ++ .group position :: rest ∧ openGroups rest = outer := by
  cases hfound : (releaseGroup stack).2 with
  | none =>
    have hnil := openGroups_waiting (releaseGroup stack).1
    rw [← releaseGroup_eq_none hfound, h] at hnil
    cases hnil
  | some found =>
    obtain ⟨p, rest⟩ := found
    have hstack := releaseGroup_eq_some hfound
    have hgroups := congrArg openGroups hstack
    rw [h, openGroups_waiting_append, openGroups_group] at hgroups
    obtain ⟨rfl, rfl⟩ := List.cons.inj hgroups
    exact ⟨(releaseGroup stack).1, rest, hstack, rfl⟩

/-! ## Reading words -/

namespace Conversion

theorem words_cons {word : List Char} {t : Token} (h : Token.ofWord? word = some t)
    (c : Conversion) (position : Nat) (later : List (List Char)) :
    c.words position (word :: later) =
      (c.token position t).bind fun next => next.words (position + 1) later := by
  cases ht : c.token position t <;> simp only [words, Token.read, h, ht] <;> rfl

theorem words_cons_error {word : List Char} (h : Token.ofWord? word = none)
    (c : Conversion) (position : Nat) (later : List (List Char)) :
    c.words position (word :: later) =
      .error (.malformedToken (String.ofList word) position) := by
  rw [words, Token.read, h]

/-- Words are read one after the other. -/
theorem words_append (c : Conversion) (position : Nat) (earlier later : List (List Char)) :
    c.words position (earlier ++ later) =
      (c.words position earlier).bind fun next =>
        next.words (position + earlier.length) later := by
  induction earlier generalizing c position with
  | nil => rfl
  | cons word earlier ih =>
    cases hread : Token.ofWord? word with
    | none =>
      rw [List.cons_append, words_cons_error hread, words_cons_error hread]
      rfl
    | some t =>
      rw [List.cons_append, words_cons hread, words_cons hread]
      cases c.token position t with
      | error e => rfl
      | ok next =>
        show next.words (position + 1) (earlier ++ later) = _
        rw [ih, List.length_cons, Nat.add_assoc, Nat.add_comm 1]
        rfl

theorem words_singleton {word : List Char} {t : Token} (h : Token.ofWord? word = some t)
    (c : Conversion) (position : Nat) : c.words position [word] = c.token position t := by
  rw [words_cons h]
  cases c.token position t <;> rfl

/-- Words that have been read stand for tokens. -/
theorem exists_token_of_words {c last : Conversion} {position : Nat} {ws : List (List Char)}
    (h : c.words position ws = .ok last) : ∀ w ∈ ws, ∃ t, Token.ofWord? w = some t := by
  induction ws generalizing c position with
  | nil =>
    intro w hw
    cases hw
  | cons word ws ih =>
    cases hread : Token.ofWord? word with
    | none =>
      rw [words_cons_error hread] at h
      cases h
    | some t =>
      rw [words_cons hread] at h
      cases hnext : c.token position t with
      | error e =>
        rw [hnext] at h
        cases h
      | ok next =>
        rw [hnext] at h
        intro w hw
        rcases List.mem_cons.1 hw with rfl | hw
        · exact ⟨t, hread⟩
        · exact ih h w hw

/-- The operator step writes what it releases. -/
theorem output_operator (c : Conversion) (op : Operator) :
    (c.operator op).output =
      c.output ++ (release op.precedence c.pending).1.map .operator :=
  output_write ..

theorem pending_operator (c : Conversion) (op : Operator) :
    (c.operator op).pending = .operator op :: (release op.precedence c.pending).2 := rfl

/-! ## Closing and finishing -/

/-- Closing writes the operators of the group. -/
theorem closeGroup_eq {c : Conversion} {ops : List Operator} {opening : Nat}
    {rest : List Pending} (h : c.pending = waiting ops ++ .group opening :: rest)
    (position : Nat) : c.closeGroup position = (.ok (), c.write ops rest) := by
  rw [closeGroup, h, releaseGroup_waiting_group]

/-- Finishing writes all operators if no group is open. -/
theorem finish_eq_ok {c : Conversion} {ops : List Operator} (h : c.pending = waiting ops) :
    c.finish = (.ok (), c.write ops []) := by
  rw [finish, h, releaseGroup_waiting]

/-- In an open group closing succeeds. -/
theorem closeGroup_of_openGroups {c : Conversion} {opening : Nat} {outer : List Nat}
    (h : openGroups c.pending = opening :: outer) (position : Nat) :
    ∃ ops rest, c.pending = waiting ops ++ .group opening :: rest ∧ openGroups rest = outer ∧
      c.closeGroup position = (.ok (), c.write ops rest) := by
  obtain ⟨ops, rest, hpending, hrest⟩ := exists_waiting_of_openGroups_eq_cons h
  exact ⟨ops, rest, hpending, hrest, closeGroup_eq hpending position⟩

/-- Finishing succeeds without an open group; otherwise it fails at the innermost one. -/
theorem finish_eq (c : Conversion) :
    (∃ ops, c.pending = waiting ops ∧ c.finish = (.ok (), c.write ops [])) ∨
      ∃ position outer ops, openGroups c.pending = position :: outer ∧
        c.finish = (.error (.unbalancedParenthesis position), c.write ops []) := by
  cases hgroups : openGroups c.pending with
  | nil =>
    obtain ⟨ops, hpending⟩ := exists_waiting_of_openGroups_eq_nil hgroups
    exact Or.inl ⟨ops, hpending, finish_eq_ok hpending⟩
  | cons position outer =>
    obtain ⟨ops, rest, hpending, _⟩ := exists_waiting_of_openGroups_eq_cons hgroups
    refine Or.inr ⟨position, outer, ops, rfl, ?_⟩
    rw [finish, hpending, releaseGroup_waiting_group]

end Conversion
end ReversePolish
end DeskCalculator
