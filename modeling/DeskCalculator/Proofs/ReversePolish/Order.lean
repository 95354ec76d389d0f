import DeskCalculator.Proofs.ReversePolish.Rising
import DeskCalculator.Proofs.ReversePolish.Waits

/-!
# The order of a converted text

A number is written when it is read, an operator when its wait is over.  This fixes the
order of every text that is converted, whether it is an expression or not
(`exists_order_of_ofText`).

The proof follows a conversion word by word (`Progress`).  What has been written and what
waits, the top first, are in order.  The words between an operator that waits and the next
word are balanced, but for the groups above the operator (`Encloses`), so what an operator
releases are those at the top that are in its group and bind at least as tightly.
-/

namespace DeskCalculator
namespace ReversePolish

open Conversion
open Parentheses (openings)
open scoped List

variable {ws : List (List Char)} {i j n : Nat}

/-! ## Positions of the entries that wait -/

/-- The entry with which the word at a position waits, if it ever waits. -/
def entryAt (ws : List (List Char)) (i : Nat) : Option Pending :=
  match tokenAt ws i with
  | some (.operator op) => some (.operator op)
  | some .leftParenthesis => some (.group i)
  | _ => none

theorem entryAt_eq_operator {op : Operator} :
    entryAt ws i = some (.operator op) ↔ tokenAt ws i = some (.operator op) := by
  rw [entryAt]
  split <;> simp_all

theorem entryAt_eq_group {p : Nat} :
    entryAt ws i = some (.group p) ↔ tokenAt ws i = some .leftParenthesis ∧ i = p := by
  rw [entryAt]
  split <;> simp_all

/-- The entries of a stack are those of the words at the positions. -/
def Marks (ws : List (List Char)) (stack : List Nat) (pending : List Pending) : Prop :=
  stack.map (entryAt ws) = pending.map some

/-- The positions of the open groups. -/
def groupsOf (ws : List (List Char)) (stack : List Nat) : List Nat :=
  stack.filter fun i => !isWrittenAt ws i

namespace Marks

variable {stack above below : List Nat} {upper lower pending : List Pending} {entry : Pending}
  {ops : List Operator}

theorem cons (hentry : entryAt ws i = some entry) (h : Marks ws stack pending) :
    Marks ws (i :: stack) (entry :: pending) := by
  rw [Marks, List.map_cons, List.map_cons, hentry, h]

theorem exists_append (h : Marks ws stack (upper ++ lower)) :
    ∃ above below, stack = above ++ below ∧ Marks ws above upper ∧ Marks ws below lower := by
  rw [Marks, List.map_append, List.map_eq_append_iff] at h
  exact h

theorem exists_cons (h : Marks ws stack (entry :: pending)) :
    ∃ i below, stack = i :: below ∧ entryAt ws i = some entry ∧ Marks ws below pending := by
  rw [Marks, List.map_cons, List.map_eq_cons_iff] at h
  exact h

/-- A position in the stack splits the entries, too. -/
theorem exists_split (h : Marks ws (above ++ i :: below) pending) :
    ∃ upper entry lower, pending = upper ++ entry :: lower ∧ Marks ws above upper ∧
      entryAt ws i = some entry ∧ Marks ws below lower := by
  rw [Marks, List.map_append, List.map_cons] at h
  obtain ⟨upper, rest, rfl, hupper, hrest⟩ := List.map_eq_append_iff.1 h.symm
  obtain ⟨entry, lower, rfl, hentry, hlower⟩ := List.map_eq_cons_iff.1 hrest
  exact ⟨upper, entry, lower, rfl, hupper.symm, hentry.symm, hlower.symm⟩

/-- The operators of a part of the stack that has no group. -/
theorem map_tokenAt (h : Marks ws stack (waiting ops)) :
    stack.map (tokenAt ws) = (ops.map Token.operator).map some := by
  induction ops generalizing stack with
  | nil =>
    obtain rfl := List.map_eq_nil_iff.1 h
    rfl
  | cons op ops ih =>
    obtain ⟨i, below, rfl, hi, hbelow⟩ := h.exists_cons
    rw [List.map_cons, entryAt_eq_operator.1 hi, ih hbelow]
    rfl

theorem exists_operator_of_mem (h : Marks ws stack (waiting ops)) (hi : i ∈ stack) :
    ∃ op ∈ ops, tokenAt ws i = some (.operator op) := by
  have hmem : tokenAt ws i ∈ (ops.map Token.operator).map some :=
    h.map_tokenAt ▸ List.mem_map_of_mem hi
  simpa [eq_comm] using hmem

/-- The positions of operators are those of words that are written. -/
theorem filter_eq (h : Marks ws stack (waiting ops)) : stack.filter (isWrittenAt ws) = stack := by
  refine List.filter_eq_self.2 fun i hi => ?_
  obtain ⟨op, -, htoken⟩ := h.exists_operator_of_mem hi
  exact isWrittenAt_of_operator htoken

/-- The groups among the positions are the open groups of the stack. -/
theorem groupsOf_eq (h : Marks ws stack pending) : groupsOf ws stack = openGroups pending := by
  induction pending generalizing stack with
  | nil =>
    obtain rfl := List.map_eq_nil_iff.1 h
    rfl
  | cons entry pending ih =>
    obtain ⟨i, below, rfl, hi, hbelow⟩ := h.exists_cons
    cases entry with
    | group p =>
      obtain ⟨htoken, rfl⟩ := entryAt_eq_group.1 hi
      rw [groupsOf, List.filter_cons_of_pos (by rw [isWrittenAt_of_tokenAt htoken]; rfl),
        openGroups_group]
      exact congrArg (i :: ·) (ih hbelow)
    | operator op =>
      have htoken := entryAt_eq_operator.1 hi
      rw [groupsOf, List.filter_cons_of_neg (by simp [isWrittenAt_of_operator htoken])]
      exact ih hbelow

theorem groupsOf_waiting (h : Marks ws stack (waiting ops)) : groupsOf ws stack = [] := by
  rw [h.groupsOf_eq, openGroups_waiting]

end Marks

/-! ## The groups above an operator that waits -/

/-- The words from an entry of the stack to the next word are balanced, but for the groups
above the entry, which they leave open. -/
def Encloses (ws : List (List Char)) (n : Nat) (stack : List Nat) : Prop :=
  ∀ above i below, stack = above ++ i :: below → i < n ∧
    ∀ outer, openings outer (i + 1) (between ws i n) = groupsOf ws above ++ outer

section Encloses

variable {stack above below gone kept pushed : List Nat} {word : List Char}

theorem groupsOf_append (above below : List Nat) :
    groupsOf ws (above ++ below) = groupsOf ws above ++ groupsOf ws below :=
  List.filter_append ..

theorem groupsOf_of_written (h : isWrittenAt ws i = true) : groupsOf ws [i] = [] :=
  List.filter_cons_of_neg (by simp [h])

theorem groupsOf_of_not_written (h : isWrittenAt ws i = false) : groupsOf ws [i] = [i] :=
  List.filter_cons_of_pos (by simp [h])

/-- An entry is in the group of the next word exactly if no group lies above it. -/
theorem Encloses.inGroup_iff (h : Encloses ws n (above ++ i :: below)) :
    InGroup ws i n ↔ groupsOf ws above = [] := by
  obtain ⟨hlt, hopenings⟩ := h above i below rfl
  rw [InGroup, and_iff_right hlt, Parentheses.balanced_iff _ (i + 1)]
  constructor
  · intro hbalanced
    have hnil := hbalanced []
    rwa [hopenings, List.append_nil] at hnil
  · intro hnil outer
    rw [hopenings, hnil, List.nil_append]

/-- A word exchanges the top of the stack for itself or for nothing. -/
theorem Encloses.step (h : Encloses ws n (gone ++ kept)) (hword : ws[n]? = some word)
    (hpushed : pushed = [] ∨ pushed = [n])
    (hopenings : ∀ outer, openings (groupsOf ws gone ++ outer) n [word] =
      groupsOf ws pushed ++ outer) :
    Encloses ws (n + 1) (pushed ++ kept) := by
  -- an entry that was in the stack before
  have hkept (above : List Nat) (i : Nat) (below : List Nat) (hsplit : kept = above ++ i :: below) :
      i < n + 1 ∧ ∀ outer, openings outer (i + 1) (between ws i (n + 1)) =
        groupsOf ws (pushed ++ above) ++ outer := by
    subst hsplit
    obtain ⟨hlt, hbefore⟩ := h (gone ++ above) i below (List.append_assoc ..).symm
    refine ⟨Nat.lt_succ_of_lt hlt, fun outer => ?_⟩
    rw [openings_between_succ hlt hword, hbefore, groupsOf_append, List.append_assoc, hopenings,
      groupsOf_append, List.append_assoc]
  intro above i below hsplit
  rcases hpushed with rfl | rfl
  · exact hkept above i below hsplit
  · cases above with
    | nil =>
      obtain ⟨rfl, -⟩ := List.cons.inj hsplit
      refine ⟨Nat.lt_succ_self n, fun outer => ?_⟩
      have hnothing : between ws n (n + 1) = [] :=
        List.drop_eq_nil_of_le (List.length_take_le ..)
      rw [hnothing]
      rfl
    | cons top above =>
      obtain ⟨rfl, htail⟩ := List.cons.inj hsplit
      exact hkept above i below htail

/-- Operators at the top of the stack are in the group of the next word. -/
theorem Encloses.inGroup_of_mem (h : Encloses ws n (gone ++ kept)) (hgone : groupsOf ws gone = [])
    (hi : i ∈ gone) : InGroup ws i n := by
  obtain ⟨above, below, rfl⟩ := List.append_of_mem hi
  rw [groupsOf_append, List.append_eq_nil_iff] at hgone
  rw [List.append_assoc] at h
  exact h.inGroup_iff.2 hgone.1

end Encloses

/-! ## Reading the words -/

/-- What has been done when the first `n` words have been read: the words at `order` have been
written, and those at `stack` wait. -/
structure Progress (ws : List (List Char)) (n : Nat) (c : Conversion)
    (order stack : List Nat) : Prop where
  /-- The words at `order` have been written. -/
  output : order.map (tokenAt ws) = c.output.map some
  /-- The words at `stack` wait. -/
  pending : Marks ws stack c.pending
  /-- All stand in order. -/
  inOrder : InOrder ws n (order ++ stack.filter (isWrittenAt ws))
  /-- What has been written has been released. -/
  released : ∀ i ∈ order, Released ws i n
  /-- What waits has not. -/
  waits : ∀ i ∈ stack, isWrittenAt ws i → ¬ Released ws i n
  /-- Between an operator that waits and the next word lie the groups above it. -/
  encloses : Encloses ws n stack

/-- Nothing is read yet. -/
theorem progress_nil (ws : List (List Char)) : Progress ws 0 {} [] [] where
  output := rfl
  pending := rfl
  inOrder := ⟨List.Perm.refl _, by simp⟩
  released := by simp
  waits := by simp
  encloses := by simp [Encloses]

namespace Progress

variable {c next : Conversion} {order stack : List Nat}

theorem released_succ (h : Progress ws n c order stack) (hi : i ∈ order) :
    Released ws i (n + 1) :=
  (h.released i hi).mono (Nat.le_succ n)

/-- A number is written at once, behind all that has been written. -/
theorem number {x : Float} (h : Progress ws n c order stack)
    (hn : tokenAt ws n = some (.number x)) :
    Progress ws (n + 1) (c.number x) (order ++ [n]) stack := by
  obtain ⟨word, hword, htoken⟩ := tokenAt_eq_some hn
  obtain ⟨hopen, hclose⟩ := Token.ne_parenthesis_of_ofWord? htoken (by simp) (by simp)
  have hwritten : isWrittenAt ws n = true := isWrittenAt_of_tokenAt hn
  have hwaits : ∀ i ∈ stack, isWrittenAt ws i → ¬ Released ws i (n + 1) := by
    intro i hi hw
    refine not_released_succ (h.waits i hi hw) fun op _ _ hreleases => ?_
    simpa using hreleases.token hn
  have hinsert := h.inOrder.insert hwritten (fun i hi => h.released_succ hi) fun i hi =>
    hwaits i (List.mem_filter.1 hi).1 (List.mem_filter.1 hi).2
  exact {
    output := by
      rw [List.map_append, h.output, output_number, List.map_append, List.map_singleton, hn,
        List.map_singleton]
    pending := h.pending
    inOrder := by rwa [List.append_assoc]
    released := by
      intro i hi
      rcases List.mem_append.1 hi with hi | hi
      · exact h.released_succ hi
      · obtain rfl := List.mem_singleton.1 hi
        exact released_of_number hn _
    waits := hwaits
    encloses := by
      have hencloses : Encloses ws n ([] ++ stack) := h.encloses
      exact hencloses.step hword (Or.inl rfl) fun outer =>
        Parentheses.openings_word hopen hclose }

section Releasing

variable {gone kept : List Nat} {ops : List Operator}

theorem output_append (h : Progress ws n c order stack) (hmarks : Marks ws gone (waiting ops)) :
    (order ++ gone).map (tokenAt ws) = (c.output ++ ops.map Token.operator).map some := by
  rw [List.map_append, h.output, hmarks.map_tokenAt, List.map_append]

theorem inOrder_append (h : Progress ws n c order (gone ++ kept))
    (hmarks : Marks ws gone (waiting ops)) :
    InOrder ws n (order ++ gone ++ kept.filter (isWrittenAt ws)) := by
  have hinOrder := h.inOrder
  rwa [List.filter_append, hmarks.filter_eq, ← List.append_assoc] at hinOrder

/-- Operators at the top of the stack are released by the next word if it releases operators
like them. -/
theorem released_append (h : Progress ws n c order (gone ++ kept))
    (hmarks : Marks ws gone (waiting ops)) (hreleases : ∀ op ∈ ops, Releases ws op n) :
    ∀ i ∈ order ++ gone, Released ws i (n + 1) := by
  intro i hi
  rcases List.mem_append.1 hi with hi | hi
  · exact h.released_succ hi
  · intro op hop
    obtain ⟨o, ho, htoken⟩ := hmarks.exists_operator_of_mem hi
    obtain rfl : o = op := by simpa [hop, eq_comm] using htoken
    have hgroup := h.encloses.inGroup_of_mem hmarks.groupsOf_waiting hi
    exact ⟨n, Nat.lt_succ_self n, hgroup, hreleases o ho⟩

end Releasing

/-- An operator releases those at the top of the stack that bind at least as tightly. -/
theorem operator {op : Operator} (h : Progress ws n c order stack) (hrising : Rising c.pending)
    (hn : tokenAt ws n = some (.operator op)) :
    ∃ gone kept, stack = gone ++ kept ∧
      Progress ws (n + 1) (c.operator op) (order ++ gone) (n :: kept) := by
  have hpending := h.pending
  rw [release_eq op.precedence c.pending] at hpending
  obtain ⟨gone, kept, rfl, hmarks, hmarksKept⟩ := hpending.exists_append
  refine ⟨gone, kept, rfl, ?_⟩
  obtain ⟨word, hword, htoken⟩ := tokenAt_eq_some hn
  obtain ⟨hopen, hclose⟩ := Token.ne_parenthesis_of_ofWord? htoken (by simp) (by simp)
  have hwritten : isWrittenAt ws n = true := isWrittenAt_of_operator hn
  have hgroups : groupsOf ws gone = [] := hmarks.groupsOf_waiting
  have hreleased : ∀ i ∈ order ++ gone, Released ws i (n + 1) :=
    h.released_append hmarks fun o ho => .operator hn (le_of_mem_release ho)
  have hkept : ∀ i ∈ kept, isWrittenAt ws i → ¬ Released ws i (n + 1) := by
    intro i hi hw
    refine not_released_succ (h.waits i (List.mem_append_right gone hi) hw) ?_
    intro lower hlower hgroup hreleases
    obtain ⟨other, hother, hle⟩ := (hreleases.token hn).resolve_left (by simp)
    obtain rfl := Token.operator.inj hother
    -- above the operator lie operators of its group alone, so it stands in a part that rises
    obtain ⟨above, below, rfl⟩ := List.append_of_mem hi
    obtain ⟨upper, entry, lowest, hsplit, hupper, hentry, -⟩ := hmarksKept.exists_split
    obtain rfl := Option.some.inj (hentry.symm.trans (entryAt_eq_operator.2 hlower))
    have hencloses := h.encloses
    rw [← List.append_assoc] at hencloses
    have hnil := hencloses.inGroup_iff.1 hgroup
    rw [groupsOf_append, hgroups, List.nil_append, hupper.groupsOf_eq] at hnil
    obtain ⟨ops, rfl⟩ := exists_waiting_of_openGroups_eq_nil hnil
    exact absurd hle (Nat.not_le.2 (lt_of_release hrising hsplit))
  exact {
    output := by
      rw [output_operator]
      exact h.output_append hmarks
    pending := hmarksKept.cons (entryAt_eq_operator.2 hn)
    inOrder := by
      rw [List.filter_cons_of_pos hwritten]
      exact (h.inOrder_append hmarks).insert hwritten hreleased fun i hi =>
        hkept i (List.mem_filter.1 hi).1 (List.mem_filter.1 hi).2
    released := hreleased
    waits := by
      intro i hi hw
      rcases List.mem_cons.1 hi with rfl | hi
      · exact not_released_self hn
      · exact hkept i hi hw
    encloses := by
      refine h.encloses.step hword (Or.inr rfl) fun outer => ?_
      rw [hgroups, groupsOf_of_written hwritten]
      exact Parentheses.openings_word hopen hclose }

/-- An open group waits on top of the stack. -/
theorem openGroup (h : Progress ws n c order stack)
    (hn : tokenAt ws n = some .leftParenthesis) :
    Progress ws (n + 1) (c.openGroup n) order (n :: stack) := by
  obtain ⟨word, hword, htoken⟩ := tokenAt_eq_some hn
  obtain rfl := Token.eq_of_ofWord?_leftParenthesis htoken
  have hwritten : isWrittenAt ws n = false := isWrittenAt_of_tokenAt hn
  exact {
    output := h.output
    pending := h.pending.cons (entryAt_eq_group.2 ⟨hn, rfl⟩)
    inOrder := by
      rw [List.filter_cons_of_neg (by simp [hwritten])]
      exact h.inOrder.skip hwritten
    released := fun i hi => h.released_succ hi
    waits := by
      intro i hi hw
      rcases List.mem_cons.1 hi with rfl | hi
      · rw [hwritten] at hw
        cases hw
      · refine not_released_succ (h.waits i hi hw) fun op _ _ hreleases => ?_
        simpa using hreleases.token hn
    encloses := by
      have hencloses : Encloses ws n ([] ++ stack) := h.encloses
      refine hencloses.step hword (Or.inr rfl) fun outer => ?_
      rw [groupsOf_of_not_written hwritten]
      rfl }

/-- Closing a group releases all above it. -/
theorem closeGroup (h : Progress ws n c order stack)
    (hn : tokenAt ws n = some .rightParenthesis)
    (hnext : c.token n .rightParenthesis = .ok next) :
    ∃ gone opening kept, stack = gone ++ opening :: kept ∧
      Progress ws (n + 1) next (order ++ gone) kept := by
  obtain ⟨ops, position, rest, hsplit, rfl⟩ := exists_write_of_closeGroup hnext
  have hpending := h.pending
  rw [hsplit] at hpending
  obtain ⟨gone, below, rfl, hmarks, hbelow⟩ := hpending.exists_append
  obtain ⟨opening, kept, rfl, hopening, hmarksKept⟩ := hbelow.exists_cons
  refine ⟨gone, opening, kept, rfl, ?_⟩
  obtain ⟨word, hword, htoken⟩ := tokenAt_eq_some hn
  obtain rfl := Token.eq_of_ofWord?_rightParenthesis htoken
  have hwritten : isWrittenAt ws n = false := isWrittenAt_of_tokenAt hn
  have hparen : isWrittenAt ws opening = false :=
    isWrittenAt_of_tokenAt (entryAt_eq_group.1 hopening).1
  have hgroups : groupsOf ws (gone ++ [opening]) = [opening] := by
    rw [groupsOf_append, hmarks.groupsOf_waiting, groupsOf_of_not_written hparen]
    rfl
  have hencloses := h.encloses
  rw [List.append_cons] at hencloses
  have hinOrder := h.inOrder_append hmarks
  rw [List.filter_cons_of_neg (by simp [hparen])] at hinOrder
  exact {
    output := by
      rw [output_write]
      exact h.output_append hmarks
    pending := hmarksKept
    inOrder := hinOrder.skip hwritten
    released := h.released_append hmarks fun _ _ => .close hn
    waits := by
      intro i hi hw
      refine not_released_succ (h.waits i (by simp [hi]) hw) fun op _ hgroup _ => ?_
      -- the group that is closed lies above what is kept
      obtain ⟨above, below, rfl⟩ := List.append_of_mem hi
      rw [← List.append_assoc] at hencloses
      have hnil := hencloses.inGroup_iff.1 hgroup
      rw [groupsOf_append, hgroups] at hnil
      cases hnil
    encloses := by
      have hopenings (outer : List Nat) :
          openings (groupsOf ws (gone ++ [opening]) ++ outer) n [[')']] =
            groupsOf ws [] ++ outer := by
        rw [hgroups]
        rfl
      exact hencloses.step hword (Or.inl rfl) hopenings }

/-- **The positions can be followed through one token more.** -/
theorem token {t : Token} (h : Progress ws n c order stack) (hrising : Rising c.pending)
    (hn : tokenAt ws n = some t) (hnext : c.token n t = .ok next) :
    ∃ order stack, Progress ws (n + 1) next order stack := by
  cases t with
  | number x =>
    cases hnext
    exact ⟨_, _, h.number hn⟩
  | operator op =>
    cases hnext
    obtain ⟨gone, kept, -, hprogress⟩ := h.operator hrising hn
    exact ⟨_, _, hprogress⟩
  | leftParenthesis =>
    cases hnext
    exact ⟨_, _, h.openGroup hn⟩
  | rightParenthesis =>
    obtain ⟨gone, opening, kept, -, hprogress⟩ := h.closeGroup hn hnext
    exact ⟨_, _, hprogress⟩

end Progress

/-- **So they can be followed through a text**, up to any of its words. -/
theorem exists_progress {c : Conversion} (hn : n ≤ ws.length)
    (h : ({} : Conversion).words 0 (ws.take n) = .ok c) :
    ∃ order stack, Progress ws n c order stack := by
  induction n generalizing c with
  | zero =>
    cases h
    exact ⟨[], [], progress_nil ws⟩
  | succ n ih =>
    have hlength : (ws.take n).length = n := List.length_take_of_le (Nat.le_of_succ_le hn)
    have hword : ws[n]? = some ws[n] := List.getElem?_eq_getElem hn
    rw [List.take_add_one, hword, Option.toList_some, words_append, hlength, Nat.zero_add] at h
    cases hprevious : ({} : Conversion).words 0 (ws.take n) with
    | error e =>
      rw [hprevious] at h
      cases h
    | ok previous =>
      rw [hprevious] at h
      obtain ⟨order, stack, hprogress⟩ := ih (Nat.le_of_succ_le hn) hprevious
      obtain ⟨t, ht⟩ := exists_token_of_words h ws[n] (List.mem_singleton_self _)
      have htoken : previous.words n [ws[n]] = .ok c := h
      rw [words_singleton ht] at htoken
      have hrising : Rising previous.pending := rising_words rising_nil hprevious
      exact hprogress.token hrising (by rw [tokenAt, hword]; exact ht) htoken

/-! ## Whole texts -/

/-- The order in which the numbers and operators of a text are written: a number before
every later word, an operator before the later words from the end of its wait on. -/
structure Ordered (ws : List (List Char)) (order : List Nat) : Prop where
  /-- The numbers and operators are written, each once. -/
  perm : order.Perm (writtenPositions ws)
  /-- A number comes before every later word. -/
  number : ∀ i ∈ order, ∀ j ∈ order, i < j → ∀ x, tokenAt ws i = some (.number x) →
    [i, j] <+ order
  /-- An operator comes before a later word exactly if its wait is over there. -/
  operator : ∀ i ∈ order, ∀ op, tokenAt ws i = some (.operator op) →
    ∃ e, WaitsUntil ws i op e ∧ ∀ j ∈ order, i < j → ([i, j] <+ order ↔ e ≤ j)

/-- What has been written at the end is in order. -/
theorem ordered_of_progress {c : Conversion} {ops : List Operator} {order stack : List Nat}
    (h : Progress ws ws.length c order stack) (hpending : c.pending = waiting ops) :
    Ordered ws (order ++ stack) := by
  have hmarks := h.pending
  rw [hpending] at hmarks
  have hinOrder := h.inOrder
  rw [hmarks.filter_eq] at hinOrder
  refine ⟨hinOrder.perm, ?_, ?_⟩
  · intro i hi j hj hlt x hx
    exact (hinOrder.before i hi j hj hlt).2 (released_of_number hx _)
  · intro i hi op hop
    obtain ⟨e, he⟩ : ∃ e, WaitsUntil ws i op e := by
      rcases List.mem_append.1 hi with hi | hi
      · obtain ⟨k, -, hgroup, hreleases⟩ := h.released i hi op hop
        exact WaitsUntil.exists_of_releases hgroup hreleases
      · -- at the end no group is open, so the operator is in the group that ends there
        have hencloses : Encloses ws ws.length (stack ++ []) := by
          rw [List.append_nil]
          exact h.encloses
        have hgroup := hencloses.inGroup_of_mem hmarks.groupsOf_waiting hi
        exact WaitsUntil.exists_of_releases hgroup (.finish rfl)
    exact ⟨e, he, fun j hj hlt => (hinOrder.before i hi j hj hlt).trans (he.released_iff hop)⟩

/-- **The order of every text that is converted**: the numbers and operators of its words, in
the order of `Ordered`. -/
theorem exists_order_of_ofText {text : String} {output : List Token}
    (h : ofText text = .ok output) :
    ∃ order, Ordered (Text.words text.toList) order ∧
      order.map (tokenAt (Text.words text.toList)) = output.map some := by
  obtain ⟨c, ops, hwords, hpending, rfl⟩ := exists_conversion_of_ofWords h
  rw [← List.take_length (l := Text.words text.toList)] at hwords
  obtain ⟨order, stack, hprogress⟩ := exists_progress (Nat.le_refl _) hwords
  refine ⟨order ++ stack, ordered_of_progress hprogress hpending, ?_⟩
  have hmarks := hprogress.pending
  rw [hpending] at hmarks
  rw [output_write]
  exact hprogress.output_append hmarks

/-- Operators without operands: one at the start, two side by side and one behind a group. -/
theorem exists_order_of_stray_operators :
    ∃ order, Ordered (Text.words "+ ( 1 * - 2 ) !".toList) order ∧
      order.map (tokenAt (Text.words "+ ( 1 * - 2 ) !".toList)) =
        [Token.number 1, .operator (.binary .multiply), .number 2, .operator (.binary .subtract),
          .operator .factorial, .operator (.binary .add)].map some := by
  have hconverted : ofText "+ ( 1 * - 2 ) !" =
      .ok [.number 1, .operator (.binary .multiply), .number 2, .operator (.binary .subtract),
        .operator .factorial, .operator (.binary .add)] := by
    decide +kernel
  exact exists_order_of_ofText hconverted

end ReversePolish
end DeskCalculator
