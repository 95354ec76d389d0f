import DeskCalculator.Token

/-!
# Matching parentheses

Two parentheses are partners if the words between them are balanced.  The positions
of the opening parentheses that have no partner are found by keeping a stack of
them, the innermost first (`openings`): an opening parenthesis goes on the stack and
a closing one takes the top away.  What stays on the stack is what has no partner
(`mem_openings_iff`), and its top is the last of them (`openings_pairwise`).  Balanced
are the words that leave every stack alone (`balanced_iff`).
-/

namespace DeskCalculator
namespace Parentheses

/-! ## Partners -/

/-- Words in which every parenthesis has its partner. -/
inductive Balanced : List (List Char) → Prop where
  /-- No words. -/
  | nil : Balanced []
  /-- A word that is no parenthesis, in front. -/
  | word {word : List Char} {later : List (List Char)} :
      word ≠ ['('] → word ≠ [')'] → Balanced later → Balanced (word :: later)
  /-- A group in front. -/
  | group {inner later : List (List Char)} :
      Balanced inner → Balanced later → Balanced (['('] :: (inner ++ [')'] :: later))

/-- At the two positions stand `(` and `)` with balanced words in between. -/
def Partners (words : List (List Char)) (p q : Nat) : Prop :=
  ∃ before inner after, words = before ++ ['('] :: (inner ++ [')'] :: after) ∧
    Balanced inner ∧ p = before.length ∧ q = before.length + inner.length + 1

/-- At the position stands a `(` that has no partner. -/
def Unmatched (words : List (List Char)) (p : Nat) : Prop :=
  words[p]? = some ['('] ∧ ∀ q, ¬ Partners words p q

/-! ## The stack of openings -/

/-- The positions of the opening parentheses without a partner, the innermost first,
if those of `waiting` were there before and the first word has the given position. -/
def openings (waiting : List Nat) (position : Nat) : List (List Char) → List Nat
  | [] => waiting
  | word :: later =>
    if word = ['('] then openings (position :: waiting) (position + 1) later
    else if word = [')'] then openings waiting.tail (position + 1) later
    else openings waiting (position + 1) later

variable {waiting : List Nat} {position p : Nat} {words : List (List Char)}

@[simp] theorem openings_nil : openings waiting position [] = waiting := rfl

@[simp] theorem openings_leftParenthesis :
    openings waiting position (['('] :: words) =
      openings (position :: waiting) (position + 1) words := rfl

@[simp] theorem openings_rightParenthesis :
    openings waiting position ([')'] :: words) =
      openings waiting.tail (position + 1) words := rfl

theorem openings_word {word : List Char} (hopen : word ≠ ['(']) (hclose : word ≠ [')']) :
    openings waiting position (word :: words) = openings waiting (position + 1) words := by
  rw [openings, if_neg hopen, if_neg hclose]

theorem openings_append (earlier later : List (List Char)) :
    openings waiting position (earlier ++ later) =
      openings (openings waiting position earlier) (position + earlier.length) later := by
  induction earlier generalizing waiting position with
  | nil => rfl
  | cons word earlier ih =>
    have hposition : position + (word :: earlier).length = position + 1 + earlier.length := by
      simp only [List.length_cons]
      omega
    rw [List.cons_append, hposition]
    by_cases hopen : word = ['(']
    · subst hopen
      exact ih
    · by_cases hclose : word = [')']
      · subst hclose
        exact ih
      · rw [openings_word hopen hclose, openings_word hopen hclose]
        exact ih

/-- Balanced words leave the stack alone. -/
theorem openings_of_balanced (h : Balanced words) : openings waiting position words = waiting := by
  induction h generalizing waiting position with
  | nil => rfl
  | word hopen hclose _ ih =>
    rw [openings_word hopen hclose]
    exact ih
  | group _ _ ihInner ihLater =>
    rw [openings_leftParenthesis, openings_append, ihInner, openings_rightParenthesis]
    exact ihLater

/-- What is on the stack was there before, or is the position of a `(`. -/
theorem mem_openings (h : p ∈ openings waiting position words) :
    p ∈ waiting ∨ position ≤ p ∧ words[p - position]? = some ['('] := by
  induction words generalizing waiting position with
  | nil => exact Or.inl h
  | cons word words ih =>
    -- a position found among the later words, seen from the first one
    have hlater {p : Nat} (h : position + 1 ≤ p ∧ words[p - (position + 1)]? = some ['(']) :
        position ≤ p ∧ (word :: words)[p - position]? = some ['('] := by
      obtain ⟨hle, hword⟩ := h
      have hsub : p - position = p - (position + 1) + 1 := by omega
      exact ⟨by omega, by rw [hsub, List.getElem?_cons_succ, hword]⟩
    by_cases hopen : word = ['(']
    · subst hopen
      rcases ih h with hmem | hword
      · rcases List.mem_cons.1 hmem with rfl | hmem
        · exact Or.inr ⟨Nat.le_refl p, by simp⟩
        · exact Or.inl hmem
      · exact Or.inr (hlater hword)
    · by_cases hclose : word = [')']
      · subst hclose
        rcases ih h with hmem | hword
        · exact Or.inl (List.mem_of_mem_tail hmem)
        · exact Or.inr (hlater hword)
      · rw [openings_word hopen hclose] at h
        rcases ih h with hmem | hword
        · exact Or.inl hmem
        · exact Or.inr (hlater hword)

/-- The stack is in descending order. -/
theorem openings_pairwise (hwaiting : waiting.Pairwise (· > ·))
    (hlt : ∀ p ∈ waiting, p < position) :
    (openings waiting position words).Pairwise (· > ·) := by
  induction words generalizing waiting position with
  | nil => exact hwaiting
  | cons word words ih =>
    have hlt' : ∀ p ∈ waiting, p < position + 1 := fun p hp => Nat.lt_succ_of_lt (hlt p hp)
    by_cases hopen : word = ['(']
    · subst hopen
      refine ih (List.pairwise_cons.2 ⟨hlt, hwaiting⟩) ?_
      intro p hp
      rcases List.mem_cons.1 hp with rfl | hp
      · exact Nat.lt_succ_self p
      · exact hlt' p hp
    · by_cases hclose : word = [')']
      · subst hclose
        exact ih (hwaiting.sublist (List.tail_sublist waiting))
          fun p hp => hlt' p (List.mem_of_mem_tail hp)
      · rw [openings_word hopen hclose]
        exact ih hwaiting hlt'

/-- The stack is at least as high as more groups are opened than closed. -/
theorem count_le_length_openings (waiting : List Nat) (position : Nat)
    (words : List (List Char)) :
    waiting.length + words.count ['('] ≤
      (openings waiting position words).length + words.count [')'] := by
  induction words generalizing waiting position with
  | nil => simp
  | cons word words ih =>
    by_cases hopen : word = ['(']
    · subst hopen
      have hlater := ih (position :: waiting) (position + 1)
      have hclosed : (['('] :: words).count [')'] = words.count [')'] :=
        List.count_cons_of_ne (by decide)
      rw [List.length_cons] at hlater
      rw [openings_leftParenthesis, List.count_cons_self, hclosed]
      omega
    · by_cases hclose : word = [')']
      · subst hclose
        have hlater := ih waiting.tail (position + 1)
        have hopened : ([')'] :: words).count ['('] = words.count ['('] :=
          List.count_cons_of_ne (by decide)
        rw [List.length_tail] at hlater
        rw [openings_rightParenthesis, List.count_cons_self, hopened]
        omega
      · rw [openings_word hopen hclose, List.count_cons_of_ne hopen,
          List.count_cons_of_ne hclose]
        exact ih waiting (position + 1)

/-! ## What stays on the stack -/

/-- Words close a group that was open before, at their first `)` behind balanced words,
or else they leave the whole stack below what they put on it. -/
theorem exists_closing_or_append (words : List (List Char)) :
    (∃ inner after, words = inner ++ [')'] :: after ∧ Balanced inner) ∨
      ∀ waiting position, ∃ added, openings waiting position words = added ++ waiting := by
  -- behind an inner group the rest is shorter, but no part of the list's own recursion
  induction hn : words.length using Nat.strongRecOn generalizing words with
  | ind n ih =>
    subst hn
    match words with
    | [] => exact Or.inr fun waiting _ => ⟨[], rfl⟩
    | word :: later =>
      have hlater := ih later.length (by simp) later rfl
      by_cases hclose : word = [')']
      · subst hclose
        exact Or.inl ⟨[], later, rfl, .nil⟩
      by_cases hopen : word = ['(']
      · subst hopen
        rcases hlater with ⟨inner, rest, rfl, hinner⟩ | hkeep
        · have hrest := ih rest.length (by simp; omega) rest rfl
          rcases hrest with ⟨inner', after, rfl, hinner'⟩ | hkeep
          · exact Or.inl ⟨['('] :: (inner ++ [')'] :: inner'), after, by simp,
              .group hinner hinner'⟩
          · refine Or.inr fun waiting position => ?_
            rw [openings_leftParenthesis, openings_append, openings_of_balanced hinner]
            exact hkeep waiting _
        · refine Or.inr fun waiting position => ?_
          obtain ⟨added, hadded⟩ := hkeep (position :: waiting) (position + 1)
          exact ⟨added ++ [position], by simp [hadded]⟩
      · rcases hlater with ⟨inner, after, rfl, hinner⟩ | hkeep
        · exact Or.inl ⟨word :: inner, after, rfl, .word hopen hclose hinner⟩
        · refine Or.inr fun waiting position => ?_
          rw [openings_word hopen hclose]
          exact hkeep waiting _

/-- A closing parenthesis in front takes something away from some stack. -/
theorem not_forall_openings_rightParenthesis (position : Nat) (later : List (List Char)) :
    ¬ ∀ waiting, openings waiting position ([')'] :: later) = waiting := by
  intro h
  -- two stacks with different tops would come to the same
  have htop (p : Nat) : openings [] (position + 1) later = [p] := h [p]
  have hsame : [0] = [1] := (htop 0).symm.trans (htop 1)
  cases hsame

/-- **Words are balanced exactly if they leave every stack alone.** -/
theorem balanced_iff (words : List (List Char)) (position : Nat) :
    Balanced words ↔ ∀ waiting, openings waiting position words = waiting := by
  constructor
  · intro h waiting
    exact openings_of_balanced h
  intro h
  induction hn : words.length using Nat.strongRecOn generalizing words position with
  | ind n ih =>
    subst hn
    match words with
    | [] => exact .nil
    | word :: later =>
      by_cases hclose : word = [')']
      · subst hclose
        exact absurd h (not_forall_openings_rightParenthesis position later)
      by_cases hopen : word = ['(']
      · subst hopen
        rcases exists_closing_or_append later with ⟨inner, after, rfl, hinner⟩ | hkeep
        · refine .group hinner (ih after.length (by simp; omega) after
            (position + 1 + inner.length + 1) ?_ rfl)
          intro waiting
          have hgroup := h waiting
          rwa [openings_leftParenthesis, openings_append, openings_of_balanced hinner,
            openings_rightParenthesis, List.tail_cons] at hgroup
        · obtain ⟨added, hadded⟩ := hkeep [position] (position + 1)
          have hnil : added ++ [position] = [] := hadded.symm.trans (h [])
          simp at hnil
      · refine .word hopen hclose (ih later.length (by simp) later (position + 1) ?_ rfl)
        intro waiting
        rw [← openings_word hopen hclose]
        exact h waiting

/-- **What stays on the stack is what has no partner.** -/
theorem mem_openings_iff : p ∈ openings [] 0 words ↔ Unmatched words p := by
  constructor
  · intro h
    rcases mem_openings h with hnil | ⟨-, hword⟩
    · cases hnil
    refine ⟨hword, ?_⟩
    rintro q ⟨before, inner, after, rfl, hinner, rfl, -⟩
    -- the group is closed again, so its position is neither from before nor from after it
    rw [openings_append, openings_leftParenthesis, openings_append, openings_of_balanced hinner,
      openings_rightParenthesis, List.tail_cons] at h
    rcases mem_openings h with hbefore | ⟨hafter, -⟩
    · rcases mem_openings hbefore with hnil | ⟨-, hword⟩
      · cases hnil
      · simp at hword
    · omega
  · rintro ⟨hword, hpartner⟩
    obtain ⟨hlt, hget⟩ := List.getElem?_eq_some_iff.1 hword
    have hsplit : words = words.take p ++ ['('] :: words.drop (p + 1) := by
      rw [← hget, ← List.drop_eq_getElem_cons hlt, List.take_append_drop]
    have hlength : (words.take p).length = p := by simp; omega
    rcases exists_closing_or_append (words.drop (p + 1)) with ⟨inner, after, hdrop, hinner⟩ | hkeep
    · rw [hdrop] at hsplit
      exact absurd ⟨_, inner, after, hsplit, hinner, hlength.symm, rfl⟩ (hpartner _)
    · rw [hsplit, openings_append, openings_leftParenthesis, hlength, Nat.zero_add]
      obtain ⟨added, hadded⟩ := hkeep (p :: openings [] 0 (words.take p)) (p + 1)
      rw [hadded]
      simp

/-- The stack is empty where every opening parenthesis has its partner. -/
theorem openings_eq_nil_iff : openings [] 0 words = [] ↔ ∀ p, ¬ Unmatched words p := by
  simp only [List.eq_nil_iff_forall_not_mem, mem_openings_iff]

/-- The top of the stack is the last opening parenthesis without a partner. -/
theorem openings_eq_cons {outer : List Nat} (h : openings [] 0 words = p :: outer) :
    Unmatched words p ∧ ∀ q, Unmatched words q → q ≤ p := by
  have hdescending : (openings [] 0 words).Pairwise (· > ·) :=
    openings_pairwise List.Pairwise.nil (by simp)
  rw [h] at hdescending
  refine ⟨mem_openings_iff.1 (by simp [h]), ?_⟩
  intro q hq
  have hmem : q ∈ p :: outer := h ▸ mem_openings_iff.2 hq
  rcases List.mem_cons.1 hmem with rfl | hmem
  · exact Nat.le_refl q
  · exact Nat.le_of_lt ((List.pairwise_cons.1 hdescending).1 q hmem)

end Parentheses
end DeskCalculator
