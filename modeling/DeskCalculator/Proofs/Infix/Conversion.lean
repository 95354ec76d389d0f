import DeskCalculator.Proofs.Infix.Expression
import DeskCalculator.Proofs.ReversePolish.Conversion
import DeskCalculator.Proofs.Text.Words
import DeskCalculator.Proofs.Token.Reading

/-!
# Reverse Polish order of infix expressions

Reading the words of an expression completes its post-order, in any conversion and
above anything that waits, but for the operators that bind at least as tightly as
the tier and have not been released yet (`reads_words`).  The next operator of the
tier or of a looser one, the end of the group or the end of the text writes them.
So an expression is converted into its post-order (`ofWords_words`).
-/

namespace DeskCalculator
namespace Infix

open ReversePolish

/-! ## Tiers and precedence -/

/-- The precedence of the operators of a tier; atoms are above all operators. -/
def Tier.level : Tier → Nat
  | .sum => 1
  | .product => 2
  | .power => 3
  | .atom => 4

theorem level_tier (op : BinaryOperator) : (tier op).level = op.precedence := by
  cases op <;> rfl

theorem level_tighter (op : BinaryOperator) : (tier op).tighter.level = op.precedence + 1 := by
  cases op <;> rfl

/-! ## Reading an expression -/

/-- The conversion reads the words as the tokens: all are written behind what was
written before, but for operators at their end that bind at least as tightly as
`level` and wait above what waited before. -/
def Reads (c : Conversion) (level position : Nat) (words : List (List Char))
    (tokens : List Token) : Prop :=
  ∃ (next : Conversion) (ops : List Operator),
    c.words position words = .ok next ∧ (∀ op ∈ ops, level ≤ op.precedence) ∧
      next.pending = waiting ops ++ c.pending ∧
      next.output ++ ops.map .operator = c.output ++ tokens

/-- No operator that binds at least as tightly as `level` waits at the top. -/
def Settled (c : Conversion) (level : Nat) : Prop :=
  release level c.pending = ([], c.pending)

variable {c : Conversion} {level position : Nat} {words : List (List Char)}
  {tokens : List Token}

theorem Settled.mono {other : Nat} (h : Settled c level) (hle : level ≤ other) :
    Settled c other := by
  unfold Settled at *
  cases hp : c.pending with
  | nil => rfl
  | cons entry stack =>
    cases entry with
    | group position => rfl
    | operator op =>
      rw [hp, release] at h
      rw [release]
      by_cases hop : level ≤ op.precedence
      · rw [if_pos hop] at h
        exact absurd (congrArg Prod.fst h) (by simp)
      · rw [if_neg (by omega)]

theorem settled_openGroup (c : Conversion) (level position : Nat) :
    Settled (c.openGroup position) level := rfl

theorem Reads.mono {other : Nat} (h : Reads c level position words tokens)
    (hle : other ≤ level) : Reads c other position words tokens := by
  obtain ⟨next, ops, hwords, hops, hrest⟩ := h
  exact ⟨next, ops, hwords, fun op ho => Nat.le_trans hle (hops op ho), hrest⟩

/-- A number is written at once. -/
theorem reads_number {word : List Char} {x : Float}
    (h : Token.ofWord? word = some (.number x)) :
    Reads c level position [word] [.number x] := by
  refine ⟨c.number x, [], ?_, by simp, rfl, by simp⟩
  exact Conversion.words_singleton h c position

/-- An operator after an operand releases what the operand left waiting, and waits
itself. -/
theorem words_operator {word : List Char} {op : Operator}
    (hop : Token.ofWord? word = some (.operator op)) (hc : Settled c op.precedence)
    (h : Reads c op.precedence position words tokens) :
    ∃ next : Conversion, c.words position (words ++ [word]) = .ok next ∧
      next.pending = .operator op :: c.pending ∧ next.output = c.output ++ tokens := by
  obtain ⟨after, ops, hwords, hops, hpending, houtput⟩ := h
  have hrelease : release op.precedence after.pending = (ops, c.pending) := by
    rw [hpending, release_append hops, hc, List.append_nil]
  refine ⟨after.operator op, ?_, ?_, ?_⟩
  · rw [Conversion.words_append, hwords]
    exact Conversion.words_singleton hop after _
  · rw [Conversion.pending_operator, hrelease]
  · rw [Conversion.output_operator, hrelease, houtput]

/-- The factorial waits although its operand is complete. -/
theorem reads_factorial (hc : Settled c 3) (h : Reads c 3 position words tokens) :
    Reads c 3 position (words ++ [['!']]) (tokens ++ [.operator .factorial]) := by
  obtain ⟨next, hwords, hpending, houtput⟩ :=
    words_operator (Token.ofWord?_symbol .factorial) hc h
  refine ⟨next, [.factorial], hwords, ?_, hpending, ?_⟩
  · intro op hop
    rw [List.mem_singleton.1 hop]
    exact Nat.le_refl 3
  · rw [houtput, List.append_assoc]
    rfl

/-- A binary operator waits below what its right operand leaves waiting. -/
theorem reads_binary (op : BinaryOperator) {right : List (List Char)} {later : List Token}
    (hc : Settled c op.precedence) (hleft : Reads c op.precedence position words tokens)
    (hright : ∀ (next : Conversion) (position : Nat), Settled next (op.precedence + 1) →
      Reads next (op.precedence + 1) position right later) :
    Reads c op.precedence position (words ++ [op.symbol] :: right)
      (tokens ++ later ++ [.operator (.binary op)]) := by
  have hop : Token.ofWord? [op.symbol] = some (.operator (.binary op)) :=
    Token.ofWord?_symbol (.binary op)
  obtain ⟨next, hwords, hpending, houtput⟩ := words_operator hop hc hleft
  have hnext : Settled next (op.precedence + 1) := by
    rw [Settled, hpending, release, if_neg]
    exact Nat.not_succ_le_self _
  obtain ⟨last, ops, hlast, hops, hlastPending, hlastOutput⟩ :=
    hright next (position + (words ++ [[op.symbol]]).length) hnext
  refine ⟨last, ops ++ [.binary op], ?_, ?_, ?_, ?_⟩
  · have hsplit : words ++ [op.symbol] :: right = (words ++ [[op.symbol]]) ++ right := by simp
    rw [hsplit, Conversion.words_append, hwords]
    exact hlast
  · intro o ho
    rcases List.mem_append.1 ho with ho | ho
    · exact Nat.le_of_succ_le (hops o ho)
    · rw [List.mem_singleton.1 ho]
      exact Nat.le_refl _
  · rw [hlastPending, hpending, waiting_append, List.append_assoc]
    rfl
  · rw [List.map_append, ← List.append_assoc, hlastOutput, houtput]
    simp

/-- Nothing is left waiting by a group. -/
theorem reads_group (h : Reads (c.openGroup position) 1 (position + 1) words tokens) :
    Reads c 4 position (['('] :: (words ++ [[')']])) tokens := by
  obtain ⟨last, ops, hwords, -, hpending, houtput⟩ := h
  have hclose : ∀ p, last.token p .rightParenthesis = .ok (last.write ops c.pending) := by
    intro p
    rw [Conversion.token, Conversion.closeGroup_eq hpending]
  refine ⟨last.write ops c.pending, [], ?_, by simp, rfl, ?_⟩
  · rw [Conversion.words_cons Token.ofWord?_leftParenthesis]
    show (c.openGroup position).words (position + 1) (words ++ [[')']]) = _
    rw [Conversion.words_append, hwords]
    show last.words _ [[')']] = _
    rw [Conversion.words_singleton Token.ofWord?_rightParenthesis, hclose]
  · rw [Conversion.output_write, houtput]
    simp

/-- **The words of an expression are read as its post-order**, whatever waits below
and whatever was written before. -/
theorem reads_words {t : Tier} (e : Expression t) {c : Conversion} (position : Nat)
    (hc : Settled c t.level) : Reads c t.level position e.words e.postorder := by
  induction e generalizing c position with
  | number n => exact reads_number n.ofWord?_word
  | group e ih => exact reads_group (ih (position + 1) (settled_openGroup c _ position))
  | factorial e ih => exact reads_factorial hc (ih position hc)
  | binary op left right ihl ihr =>
    rw [level_tier] at hc ihl ⊢
    refine reads_binary op hc (ihl position hc) ?_
    intro next position hnext
    rw [level_tighter] at ihr
    exact ihr position hnext
  | ofProduct e ih => exact (ih position (hc.mono (by decide))).mono (by decide)
  | ofPower e ih => exact (ih position (hc.mono (by decide))).mono (by decide)
  | ofAtom e ih => exact (ih position (hc.mono (by decide))).mono (by decide)

/-! ## The whole text -/

/-- The end of the text writes what waits. -/
theorem ofWords_of_reads (h : Reads {} level 0 words tokens) :
    ReversePolish.ofWords words = .ok tokens := by
  obtain ⟨last, ops, hwords, -, hpending, houtput⟩ := h
  have hfinish : last.finish = (.ok (), last.write ops []) := by
    rw [List.append_nil] at hpending
    exact Conversion.finish_eq_ok hpending
  simp only [ReversePolish.ofWords, hwords, hfinish, Conversion.output_write, houtput]
  rfl

/-- An expression is converted into its post-order. -/
theorem ofWords_words {t : Tier} (e : Expression t) :
    ReversePolish.ofWords e.words = .ok e.postorder :=
  ofWords_of_reads (reads_words e 0 rfl)

/-- The words of an expression are words. -/
theorem isWord_of_mem_words {t : Tier} (e : Expression t) :
    ∀ w ∈ e.words, Text.IsWord w := by
  have hleft : Text.IsWord ['('] := Token.isWord_of_ofWord? Token.ofWord?_leftParenthesis
  have hright : Text.IsWord [')'] := Token.isWord_of_ofWord? Token.ofWord?_rightParenthesis
  have hsymbol (op : Operator) : Text.IsWord [op.symbol] :=
    Token.isWord_of_ofWord? (Token.ofWord?_symbol op)
  induction e with
  | number n =>
    intro w hw
    rw [List.mem_singleton.1 hw]
    exact Token.isWord_of_ofWord? n.ofWord?_word
  | group e ih =>
    intro w hw
    rcases List.mem_cons.1 hw with rfl | hw
    · exact hleft
    rcases List.mem_append.1 hw with hw | hw
    · exact ih w hw
    · rw [List.mem_singleton.1 hw]
      exact hright
  | factorial e ih =>
    intro w hw
    rcases List.mem_append.1 hw with hw | hw
    · exact ih w hw
    · rw [List.mem_singleton.1 hw]
      exact hsymbol .factorial
  | binary op left right ihl ihr =>
    intro w hw
    rcases List.mem_append.1 hw with hw | hw
    · exact ihl w hw
    rcases List.mem_cons.1 hw with rfl | hw
    · exact hsymbol (.binary op)
    · exact ihr w hw
  | ofProduct e ih => exact ih
  | ofPower e ih => exact ih
  | ofAtom e ih => exact ih

/-- The words of a text that joins an expression are those of the expression. -/
theorem words_of_joined_expression {t : Tier} (e : Expression t) {text : List Char}
    (h : Text.Joined e.words text) : Text.words text = e.words :=
  Text.words_of_joined h (isWord_of_mem_words e)

/-- **A text that joins an infix expression is converted into its post-order.** -/
theorem ofText_of_joined (e : Expression .sum) {text : String}
    (h : Text.Joined e.words text.toList) :
    ReversePolish.ofText text = .ok e.postorder := by
  rw [ReversePolish.ofText, ReversePolish.ofChars, words_of_joined_expression e h]
  exact ofWords_words e

/-- The root and the factorial bind equally, so the root is taken first. -/
theorem ofText_factorial_of_root :
    Text.Joined [['2'], ['√'], ['9'], ['!']] "2 √ \t9 !".toList ∧
      ReversePolish.ofText "2 √ \t9 !" =
        .ok [.number 2, .number 9, .operator (.binary .root), .operator .factorial] := by
  let two : Numeral := ⟨['2'], 2, by decide +kernel⟩
  let nine : Numeral := ⟨['9'], 9, by decide +kernel⟩
  let root : Expression .power := .binary .root (.ofAtom (.number two)) (.number nine)
  have htext : "2 √ \t9 !".toList = ['2', ' ', '√', ' ', '\t', '9', ' ', '!'] := by
    decide +kernel
  have hjoined : Text.Joined [['2'], ['√'], ['9'], ['!']] "2 √ \t9 !".toList := by
    have hgap : ∀ c ∈ [' '], Text.isBlank c = true := List.all_eq_true.1 rfl
    have hgap' : ∀ c ∈ [' ', '\t'], Text.isBlank c = true := List.all_eq_true.1 rfl
    rw [htext]
    refine .cons ['2'] (by decide) hgap ?_
    refine .cons ['√'] (by decide) hgap' ?_
    exact .cons ['9'] (by decide) hgap (.single ['!'])
  exact ⟨hjoined, ofText_of_joined (.ofProduct (.ofPower (.factorial root))) hjoined⟩

end Infix
end DeskCalculator
