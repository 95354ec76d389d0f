import DeskCalculator.Proofs.ReversePolish.Classification
import DeskCalculator.Proofs.ReversePolish.Permutation
import DeskCalculator.Proofs.ReversePolish.Supply

/-!
# Missing operands

An operand is missing where one is due and an operator, a closing parenthesis or the
end of the text comes instead (`missing`).  The implicit zero makes up for one of them, but
not in its place.  It is the lowest entry of the stack, so it becomes the left operand of
the operator that comes down to it: `1 + + 2` is `(0 + 1) + 2`
(`evaluate_of_operator_before_operator`), `5 - - 2` is `(0 - 5) - 2`, and `2 * ( - 3 )` is
`0 * (2 - 3)`.  So a single missing operand is never noticed.  A second one always is, since
there are then more binary operators than numbers (`evaluate_of_missing`).

Operands stand side by side where a number or a group begins although none is due.
Such superfluous operands can make up for missing ones, and texts with them are left
out (`Separate`).
-/

namespace DeskCalculator
namespace ReversePolish

open Scan (Sound)

/-! ## Missing operands -/

/-- The number of operands that are missing, given whether one is due at the start. -/
def missing : (due : Bool) → List Token → Nat
  | due, [] => due.toNat
  | _, .number _ :: later => missing false later
  | due, .operator (.binary _) :: later => due.toNat + missing true later
  | due, .operator .factorial :: later => due.toNat + missing false later
  | _, .leftParenthesis :: later => missing true later
  | due, .rightParenthesis :: later => due.toNat + missing false later

/-- Numbers and groups begin only where an operand is due. -/
def Separate : (due : Bool) → List Token → Prop
  | _, [] => True
  | due, .number _ :: later => due = true ∧ Separate false later
  | _, .operator (.binary _) :: later => Separate true later
  | _, .operator .factorial :: later => Separate false later
  | due, .leftParenthesis :: later => due = true ∧ Separate true later
  | _, .rightParenthesis :: later => Separate false later

variable {due : Bool} {tokens converted : List Token} {ws : List (List Char)}

/-- A binary operator has no right operand, or it has no left one at the start of a
group although there is a number before the group. -/
inductive Lacking (tokens : List Token) : Prop where
  /-- The operator comes last, or an operator or `)` comes next. -/
  | right {earlier later : List Token} {op : BinaryOperator} :
      tokens = earlier ++ .operator (.binary op) :: later →
      (∀ t, later.head? = some t → (∃ next, t = .operator next) ∨ t = .rightParenthesis) →
      Lacking tokens
  /-- The operator follows `(`, and there is a number before. -/
  | left {earlier later : List Token} {op : BinaryOperator} {x : Float} :
      tokens = earlier ++ .leftParenthesis :: .operator (.binary op) :: later →
      .number x ∈ earlier → Lacking tokens

theorem exists_missing_le (due : Bool) (earlier later : List Token) :
    ∃ due', missing due' later ≤ missing due (earlier ++ later) := by
  induction earlier generalizing due with
  | nil => exact ⟨due, Nat.le_refl _⟩
  | cons t earlier ih =>
    rcases t with x | ⟨op | _⟩ | _ | _
    · exact ih false
    · obtain ⟨due', hle⟩ := ih true
      exact ⟨due', Nat.le_trans hle (Nat.le_add_left _ _)⟩
    · obtain ⟨due', hle⟩ := ih false
      exact ⟨due', Nat.le_trans hle (Nat.le_add_left _ _)⟩
    · exact ih true
    · obtain ⟨due', hle⟩ := ih false
      exact ⟨due', Nat.le_trans hle (Nat.le_add_left _ _)⟩

/-- An operator that lacks an operand counts. -/
theorem Lacking.one_le_missing (h : Lacking tokens) : 1 ≤ missing true tokens := by
  cases h with
  | @right earlier later op htokens hnext =>
    obtain ⟨due, hle⟩ := exists_missing_le true earlier (.operator (.binary op) :: later)
    have hlater : 1 ≤ missing true later := by
      cases later with
      | nil => exact Nat.le_refl 1
      | cons t later =>
        rcases hnext t rfl with ⟨⟨_ | _⟩, rfl⟩ | rfl <;> exact Nat.le_add_right 1 _
    rw [htokens]
    exact Nat.le_trans (Nat.le_trans hlater (Nat.le_add_left _ _)) hle
  | @left earlier later op x htokens _ =>
    obtain ⟨due, hle⟩ :=
      exists_missing_le true earlier (.leftParenthesis :: .operator (.binary op) :: later)
    rw [htokens]
    exact Nat.le_trans (Nat.le_add_right 1 _) hle

/-- Between two binary operators there is one number, or one operand is missing. -/
theorem surplus_add_missing (h : Separate due tokens) :
    surplus tokens + missing due tokens = due.toNat := by
  induction tokens generalizing due with
  | nil => simp [missing]
  | cons t tokens ih =>
    have hsurplus : surplus (t :: tokens) = surplus [t] + surplus tokens :=
      surplus_append [t] tokens
    rw [hsurplus]
    cases t with
    | number x =>
      obtain ⟨rfl, hlater⟩ := h
      have hcount := ih hlater
      simp [missing] at hcount ⊢
      omega
    | operator op =>
      cases op with
      | binary b =>
        have hlater : Separate true tokens := h
        have hcount := ih hlater
        simp [missing] at hcount ⊢
        omega
      | factorial =>
        have hlater : Separate false tokens := h
        have hcount := ih hlater
        simp [missing] at hcount ⊢
        omega
    | leftParenthesis =>
      obtain ⟨rfl, hlater⟩ := h
      have hcount := ih hlater
      have hparen : surplus [.leftParenthesis] = 0 := rfl
      simp [missing, hparen] at hcount ⊢
      omega
    | rightParenthesis =>
      have hlater : Separate false tokens := h
      have hcount := ih hlater
      have hparen : surplus [.rightParenthesis] = 0 := rfl
      simp [missing, hparen] at hcount ⊢
      omega

/-! ## Too few numbers -/

/-- Conversion keeps the surplus. -/
theorem surplus_of_ofWords (hread : ws.map Token.ofWord? = tokens.map some)
    (h : ofWords ws = .ok converted) : surplus converted = surplus tokens := by
  have hperm := perm_of_ofWords hread h
  have hnumbers : (tokens.filter fun t => !t.isParenthesis).countP Token.isNumber =
      tokens.countP Token.isNumber := by
    rw [List.countP_filter]
    refine List.countP_congr fun t _ => ?_
    cases t <;> simp [Token.isNumber, Token.isParenthesis]
  have hbinaries : (tokens.filter fun t => !t.isParenthesis).countP Token.isBinary =
      tokens.countP Token.isBinary := by
    rw [List.countP_filter]
    refine List.countP_congr fun t _ => ?_
    rcases t with _ | ⟨_ | _⟩ | _ | _ <;> simp [Token.isBinary, Token.isParenthesis]
  rw [surplus, surplus, hperm.countP_eq, hperm.countP_eq, hnumbers, hbinaries]

/-- **With more binary operators than numbers there is no value.**  An operator lacks an
operand, or one before it rejects its operands. -/
theorem evaluate_of_surplus_neg (h : surplus tokens < 0) :
    ∃ e, evaluate tokens = .error e ∧
      ((∃ op, e = .missingOperand op) ∨ ∃ d, e = .domain d) := by
  rcases Scan.sound_or_firstFailure Stop tokens with hsound | ⟨e, hfirst⟩
  · obtain ⟨s, -, hreached⟩ := exists_reached hsound
    have hnonneg := hreached.nonneg
    omega
  · obtain ⟨earlier, t, later, -, -, hstop⟩ := hfirst.exists_split
    refine ⟨e, evaluate_of_firstFailure hfirst, ?_⟩
    cases hstop with
    | missingOperand _ => exact Or.inl ⟨_, rfl⟩
    | factorial _ _ => exact Or.inr ⟨_, rfl⟩
    | binary _ _ => exact Or.inr ⟨_, rfl⟩

/-! ## As many operands below as are missing -/

namespace Conversion

/-- With as many operands below as are missing, the words supply one operand. -/
theorem Supplies.words {c last : Conversion} {start position : Nat}
    (hread : ws.map Token.ofWord? = tokens.map some) (hseparate : Separate due tokens)
    (h : c.words position ws = .ok last)
    (hsupplies : c.Supplies start ((!due).toNat + missing due tokens)) :
    last.Supplies start 1 := by
  induction ws generalizing c position tokens due with
  | nil =>
    cases h
    obtain rfl : tokens = [] := by simpa using hread.symm
    cases due <;> exact hsupplies
  | cons word ws ih =>
    obtain ⟨t, tokens, rfl⟩ : ∃ t later, tokens = t :: later :=
      List.exists_cons_of_ne_nil (by rintro rfl; simp at hread)
    rw [List.map_cons, List.map_cons, List.cons.injEq] at hread
    obtain ⟨hword, hread⟩ := hread
    rw [words_cons hword] at h
    -- where an operand must be complete, it is or else it is missing
    have hcomplete (m : Nat) : (!due).toNat + (due.toNat + m) = m + 1 := by
      cases due <;> simp <;> omega
    cases t with
    | number x =>
      obtain ⟨rfl, hlater⟩ := hseparate
      refine ih hread hlater h ?_
      have hnumber : (c.number x).Supplies start (missing false tokens + 1) := by
        simpa [missing] using Supplies.number hsupplies x
      rwa [Nat.add_comm] at hnumber
    | operator op =>
      cases op with
      | binary b =>
        rw [missing, hcomplete] at hsupplies
        have hlater : Separate true tokens := hseparate
        refine ih hread hlater h ?_
        have hbinary := Supplies.binary hsupplies b
        simpa using hbinary
      | factorial =>
        rw [missing, hcomplete] at hsupplies
        have hlater : Separate false tokens := hseparate
        refine ih hread hlater h ?_
        have hfactorial := Supplies.factorial hsupplies
        rwa [Nat.add_comm] at hfactorial
    | leftParenthesis =>
      obtain ⟨rfl, hlater⟩ := hseparate
      exact ih hread hlater h (Supplies.openGroup hsupplies position)
    | rightParenthesis =>
      cases hnext : c.token position .rightParenthesis with
      | error e =>
        rw [hnext] at h
        cases h
      | ok next =>
        rw [hnext] at h
        obtain ⟨ops, opening, rest, hpending, rfl⟩ := exists_write_of_closeGroup hnext
        rw [missing, hcomplete] at hsupplies
        have hlater : Separate false tokens := hseparate
        refine ih hread hlater h ?_
        have hclose := Supplies.closeGroup hsupplies hpending
        rwa [Nat.add_comm] at hclose

end Conversion

/-- With as many operands below as are missing, a converted text leaves one. -/
theorem height_of_missing (hread : ws.map Token.ofWord? = tokens.map some)
    (hseparate : Separate true tokens) (h : ofWords ws = .ok converted) :
    height (missing true tokens) converted = some 1 := by
  obtain ⟨c, ops, hwords, hpending, rfl⟩ := exists_conversion_of_ofWords h
  have hstart : ({} : Conversion).Supplies (missing true tokens)
      ((!true).toNat + missing true tokens) := by
    rw [Bool.not_true, Bool.toNat_false, Nat.zero_add]
    rfl
  have hlast : c.Supplies (missing true tokens) 1 := hstart.words hread hseparate hwords
  exact hlast.finish hpending

/-! ## The law -/

/-- An operator before an operator, and yet a value. -/
theorem evaluate_of_operator_before_operator :
    ∃ tokens converted, (Text.words "1 + + 2".toList).map Token.ofWord? = tokens.map some ∧
      ofText "1 + + 2" = .ok converted ∧ Lacking tokens ∧
      DeskCalculator.evaluate "1 + + 2" = .ok (.integer 3) := by
  let plus : Token := .operator (.binary .add)
  have hlacking : Lacking ([.number 1] ++ plus :: [plus, .number 2]) := .right rfl (by simp [plus])
  exact ⟨_, [.number 1, plus, .number 2, plus], by decide +kernel, by decide +kernel, hlacking,
    by decide +kernel⟩

/-- **The implicit zero hides one missing operand, and only one.**  In a text whose
parentheses balance and whose operands do not stand side by side, a single missing
operand is never noticed: the text has a value, unless an operator rejects its
operands.  If two or more are missing, there is no value: an operator lacks an operand,
unless one before it rejects its operands. -/
theorem evaluate_of_missing {text : String}
    (hread : (Text.words text.toList).map Token.ofWord? = tokens.map some)
    (hbalanced : ofText text = .ok converted) (hseparate : Separate true tokens) :
    (Lacking tokens → 1 ≤ missing true tokens) ∧
    (missing true tokens ≤ 1 →
      ∀ e, DeskCalculator.evaluate text = .error e → ∃ d, e = .evaluation (.domain d)) ∧
    (2 ≤ missing true tokens →
      ∃ e, DeskCalculator.evaluate text = .error (.evaluation e) ∧
        ((∃ op, e = .missingOperand op) ∨ ∃ d, e = .domain d)) := by
  have hevaluate : DeskCalculator.evaluate text =
      (evaluate converted).mapError CalculationError.evaluation := by
    have hchars : ofChars text.toList = .ok converted := hbalanced
    rw [DeskCalculator.evaluate, evaluateChars, hchars]
  refine ⟨Lacking.one_le_missing, ?_, ?_⟩
  · intro hone e he
    have hheight := height_of_missing hread hseparate hbalanced
    rw [hevaluate] at he
    cases hresult : evaluate converted with
    | ok n =>
      rw [hresult] at he
      cases he
    | error cause =>
      rw [hresult] at he
      cases he
      -- where an operand is missing, the implicit zero is counted as well
      obtain ⟨d, rfl⟩ : ∃ d, cause = .domain d := by
        have hcases : missing true tokens = 0 ∨ missing true tokens = 1 := by omega
        rcases hcases with hzero | hone
        · rw [hzero] at hheight
          exact evaluate_of_height_one false hheight hresult
        · rw [hone] at hheight
          exact evaluate_of_height_one true hheight hresult
      exact ⟨d, rfl⟩
  · intro htwo
    have hcount := surplus_add_missing hseparate
    have hneg : surplus converted < 0 := by
      rw [surplus_of_ofWords hread hbalanced]
      simp at hcount
      omega
    obtain ⟨e, he, hcause⟩ := evaluate_of_surplus_neg hneg
    refine ⟨e, ?_, hcause⟩
    rw [hevaluate, he]
    rfl

/-- Two operands are missing, one of them at the end of a group. -/
theorem evaluate_two_operands_missing :
    ∃ tokens converted,
      (Text.words "2 * ( 3 - - )".toList).map Token.ofWord? = tokens.map some ∧
      ofText "2 * ( 3 - - )" = .ok converted ∧ Separate true tokens ∧
      missing true tokens = 2 ∧
      ∃ e, DeskCalculator.evaluate "2 * ( 3 - - )" = .error (.evaluation e) ∧
        ((∃ op, e = .missingOperand op) ∨ ∃ d, e = .domain d) := by
  let times : Token := .operator (.binary .multiply)
  let minus : Token := .operator (.binary .subtract)
  have hread : (Text.words "2 * ( 3 - - )".toList).map Token.ofWord? =
      [.number 2, times, .leftParenthesis, .number 3, minus, minus, .rightParenthesis].map some := by
    decide +kernel
  have hbalanced : ofText "2 * ( 3 - - )" =
      .ok [.number 2, .number 3, minus, minus, times] := by
    decide +kernel
  have hseparate : Separate true
      [.number 2, times, .leftParenthesis, .number 3, minus, minus, .rightParenthesis] := by
    simp [Separate, times, minus]
  exact ⟨_, _, hread, hbalanced, hseparate, rfl,
    (evaluate_of_missing hread hbalanced hseparate).2.2 (Nat.le_refl 2)⟩

example : DeskCalculator.evaluate "5 - - 2" = .ok (.integer (-7)) := by decide +kernel

end ReversePolish
end DeskCalculator
