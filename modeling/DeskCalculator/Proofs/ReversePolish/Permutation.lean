import Mathlib.Data.List.Perm.Basic
import DeskCalculator.Proofs.ReversePolish.Conversion

/-!
# Nothing is lost

What a conversion has written, together with the operators that still wait, are the
numbers and operators that it has read, each once (`content_words`).  At the end
nothing waits, so a converted text has exactly the numbers and operators of the text
(`perm_of_ofWords`); only the parentheses are gone.
-/

namespace DeskCalculator

/-- Is the token a parenthesis? -/
def Token.isParenthesis : Token → Bool
  | .leftParenthesis | .rightParenthesis => true
  | _ => false

namespace ReversePolish

/-- The operator that an entry waits with, if it is no open group. -/
def Pending.operator? : Pending → Option Operator
  | .group _ => none
  | .operator op => some op

/-- The operators of a stack, the top first. -/
def operators (stack : List Pending) : List Operator :=
  stack.filterMap Pending.operator?

theorem operators_nil : operators [] = [] := rfl

theorem operators_waiting_append (ops : List Operator) (stack : List Pending) :
    operators (waiting ops ++ stack) = ops ++ operators stack := by
  induction ops with
  | nil => rfl
  | cons op ops ih => exact congrArg (op :: ·) ih

theorem operators_waiting (ops : List Operator) : operators (waiting ops) = ops := by
  have happend := operators_waiting_append ops []
  rwa [List.append_nil, operators_nil, List.append_nil] at happend

theorem operators_operator (op : Operator) (stack : List Pending) :
    operators (.operator op :: stack) = op :: operators stack := rfl

theorem operators_group (position : Nat) (stack : List Pending) :
    operators (.group position :: stack) = operators stack := rfl

namespace Conversion

/-- All that has been written, and behind it the operators that wait. -/
def content (c : Conversion) : List Token :=
  c.output ++ (operators c.pending).map .operator

/-! ## Steps -/

/-- What is released passes from one part of the content to the other. -/
theorem content_write {c : Conversion} {ops : List Operator} {kept below : List Pending}
    (hpending : c.pending = waiting ops ++ below) (hbelow : operators below = operators kept) :
    (c.write ops kept).content = c.content := by
  have hkept : (c.write ops kept).pending = kept := rfl
  rw [content, content, output_write, hkept, hpending, operators_waiting_append, hbelow,
    List.map_append, List.append_assoc]

theorem content_number (c : Conversion) (x : Float) :
    ((c.number x).content).Perm (c.content ++ [.number x]) := by
  have hpending : (c.number x).pending = c.pending := rfl
  rw [content, content, output_number, hpending, List.append_assoc, List.append_assoc]
  exact List.perm_append_comm.append_left c.output

theorem content_operator (c : Conversion) (op : Operator) :
    ((c.operator op).content).Perm (c.content ++ [.operator op]) := by
  let released := (release op.precedence c.pending).1
  let kept := (release op.precedence c.pending).2
  have hwrite : (c.write released kept).content = c.content :=
    content_write (release_eq op.precedence c.pending) rfl
  have hoperator : (c.operator op).content =
      (c.output ++ released.map .operator) ++ .operator op :: (operators kept).map .operator := by
    rw [content, output_operator, pending_operator, operators_operator, List.map_cons]
  have hcontent : c.content =
      (c.output ++ released.map .operator) ++ (operators kept).map .operator := by
    rw [← hwrite, content, output_write]
    rfl
  rw [hoperator, hcontent]
  exact List.perm_middle.trans (List.perm_append_singleton _ _).symm

/-- Closing succeeds only where a group is open. -/
theorem exists_write_of_closeGroup {c next : Conversion} {position : Nat}
    (h : c.token position .rightParenthesis = .ok next) :
    ∃ ops opening rest, c.pending = waiting ops ++ .group opening :: rest ∧
      next = c.write ops rest := by
  cases hfound : (releaseGroup c.pending).2 with
  | none =>
    have hpending := releaseGroup_eq_none hfound
    rw [token, closeGroup, hpending, releaseGroup_waiting] at h
    cases h
  | some found =>
    obtain ⟨opening, rest⟩ := found
    have hpending := releaseGroup_eq_some hfound
    rw [token, closeGroup_eq hpending] at h
    cases h
    exact ⟨_, opening, rest, hpending, rfl⟩

/-- A token is added to the content, unless it is a parenthesis. -/
theorem content_token {c next : Conversion} {position : Nat} {t : Token}
    (h : c.token position t = .ok next) :
    next.content.Perm (c.content ++ [t].filter fun t => !t.isParenthesis) := by
  cases t with
  | number x =>
    cases h
    exact c.content_number x
  | operator op =>
    cases h
    exact c.content_operator op
  | leftParenthesis =>
    have hnothing : [Token.leftParenthesis].filter (fun t => !t.isParenthesis) = [] := rfl
    cases h
    rw [hnothing, List.append_nil]
    exact List.Perm.refl _
  | rightParenthesis =>
    have hnothing : [Token.rightParenthesis].filter (fun t => !t.isParenthesis) = [] := rfl
    obtain ⟨ops, opening, rest, hpending, rfl⟩ := exists_write_of_closeGroup h
    rw [content_write hpending (operators_group opening rest), hnothing, List.append_nil]

/-- **The content grows by the tokens that are read**, parentheses apart. -/
theorem content_words {c last : Conversion} {position : Nat} {ws : List (List Char)}
    {tokens : List Token} (hread : ws.map Token.ofWord? = tokens.map some)
    (h : c.words position ws = .ok last) :
    last.content.Perm (c.content ++ tokens.filter fun t => !t.isParenthesis) := by
  induction ws generalizing c position tokens with
  | nil =>
    cases h
    obtain rfl : tokens = [] := by simpa using hread.symm
    simp
  | cons word ws ih =>
    obtain ⟨t, tokens, rfl⟩ : ∃ t later, tokens = t :: later :=
      List.exists_cons_of_ne_nil (by rintro rfl; simp at hread)
    rw [List.map_cons, List.map_cons, List.cons.injEq] at hread
    obtain ⟨hword, hread⟩ := hread
    rw [words_cons hword] at h
    cases hnext : c.token position t with
    | error e =>
      rw [hnext] at h
      cases h
    | ok next =>
      rw [hnext] at h
      have htoken := content_token hnext
      have hlater := (ih hread h).trans (htoken.append_right _)
      rwa [List.append_assoc, ← List.filter_append] at hlater

end Conversion

/-! ## Whole texts -/

/-- A conversion that succeeds ends with operators alone, and all are written. -/
theorem exists_conversion_of_ofWords {ws : List (List Char)} {tokens : List Token}
    (h : ofWords ws = .ok tokens) :
    ∃ c ops, ({} : Conversion).words 0 ws = .ok c ∧ c.pending = waiting ops ∧
      tokens = (c.write ops []).output := by
  rw [ofWords] at h
  cases hread : ({} : Conversion).words 0 ws with
  | error e =>
    rw [hread] at h
    cases h
  | ok c =>
    simp only [hread] at h
    rcases c.finish_eq with ⟨ops, hpending, hfinish⟩ | ⟨position, outer, ops, -, hfinish⟩
    · simp only [hfinish] at h
      cases h
      exact ⟨c, ops, rfl, hpending, rfl⟩
    · simp only [hfinish] at h
      cases h

/-- **A converted text has the numbers and operators of the text**, each once. -/
theorem perm_of_ofWords {ws : List (List Char)} {tokens converted : List Token}
    (hread : ws.map Token.ofWord? = tokens.map some) (h : ofWords ws = .ok converted) :
    converted.Perm (tokens.filter fun t => !t.isParenthesis) := by
  obtain ⟨c, ops, hwords, hpending, rfl⟩ := exists_conversion_of_ofWords h
  have hcontent : (c.write ops []).output = c.content := by
    rw [Conversion.content, Conversion.output_write, hpending, operators_waiting]
  rw [hcontent]
  exact Conversion.content_words hread hwords

end ReversePolish
end DeskCalculator
