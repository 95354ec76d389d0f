import Mathlib.Data.Nat.Find
import Mathlib.Order.Bounds.Basic
import DeskCalculator.Deviation
import DeskCalculator.Proofs.Decimal.Special

/-!
# Words as the longest match

A lexer is given by rules, each a pattern with the token that a match stands for
(`Token.Rule`).  It takes the longest match at the start of a word (`TakesLongest`), and
the word is a token if nothing is left behind the match (`lexWord`).  A word that matches
as a whole is its own longest match, so that it is taken.  A word that does not match is
no token, however much of it the lexer takes.  So words are read with a lexer as they are
read without one (`lexWord_eq_read`).

The values of a statistic are read without rules.  Both readers agree on literals, and a
statistic also takes the names of special values (`reading_classified`).
-/

namespace DeskCalculator

open RegularExpression (char)

variable {w : List Char} {t : Token} {x : Float} {p n : Nat}

namespace Token

/-! ## What words stand for -/

theorem ofSymbol?_ne_number (c : Char) (x : Float) : ofSymbol? c ≠ some (.number x) := by
  intro h
  unfold ofSymbol? at h
  split at h
  · cases h
  split at h
  · cases h
  · simp at h

/-- A number is written as a literal. -/
theorem ofWord?_eq_number_iff :
    ofWord? w = some (.number x) ↔
      w ∈ Decimal.Pattern.literal.matches' ∧ Decimal.read? w = some x := by
  rw [← Decimal.Literal.isSome_ofText?_iff, Decimal.read?]
  unfold ofWord?
  cases hl : Decimal.Literal.ofText? w with
  | some l => simp
  | none =>
    refine iff_of_false (fun h => ?_) fun h => Bool.false_ne_true h.1
    dsimp only at h
    split at h
    · exact ofSymbol?_ne_number _ x h
    · cases h

theorem exists_number_iff :
    (∃ x, ofWord? w = some (.number x)) ↔ w ∈ Decimal.Pattern.literal.matches' := by
  constructor
  · rintro ⟨x, hx⟩
    exact (ofWord?_eq_number_iff.1 hx).1
  · intro h
    obtain ⟨l, hl⟩ := Option.isSome_iff_exists.1 (Decimal.Literal.isSome_ofText?_iff.2 h)
    exact ⟨l.value, ofWord?_of_ofText? hl⟩

/-- An operator is written as its symbol. -/
theorem ofWord?_eq_operator_iff {op : Operator} :
    ofWord? w = some (.operator op) ↔ w = [op.symbol] := by
  constructor
  · intro h
    obtain ⟨c, rfl, hc⟩ := exists_ofSymbol?_of_ofWord? h (by simp)
    unfold ofSymbol? at hc
    split at hc
    · cases hc
    split at hc
    · cases hc
    · simp only [Option.map_eq_some_iff, operator.injEq, exists_eq_right] at hc
      rw [Operator.symbol_of_ofSymbol? hc]
  · rintro rfl
    exact ofWord?_symbol op

theorem ofWord?_eq_leftParenthesis_iff : ofWord? w = some .leftParenthesis ↔ w = ['('] := by
  constructor
  · exact eq_of_ofWord?_leftParenthesis
  · rintro rfl
    exact ofWord?_leftParenthesis

theorem ofWord?_eq_rightParenthesis_iff : ofWord? w = some .rightParenthesis ↔ w = [')'] := by
  constructor
  · exact eq_of_ofWord?_rightParenthesis
  · rintro rfl
    exact ofWord?_rightParenthesis

theorem read_eq_ok_iff : read w p = .ok t ↔ ofWord? w = some t := by
  rw [read]
  cases ofWord? w <;> simp

/-- What is neither a literal nor a symbol is no token. -/
theorem read_eq_error (hnumber : w ∉ Decimal.Pattern.literal.matches')
    (hoperator : ∀ op : Operator, w ≠ [op.symbol]) (hopen : w ≠ ['(']) (hclose : w ≠ [')'])
    (p : Nat) : read w p = .error (.malformedToken (String.ofList w) p) := by
  rw [read]
  cases ht : ofWord? w with
  | none => rfl
  | some t =>
    cases t with
    | number x => exact absurd (ofWord?_eq_number_iff.1 ht).1 hnumber
    | operator op => exact absurd (ofWord?_eq_operator_iff.1 ht) (hoperator op)
    | leftParenthesis => exact absurd (ofWord?_eq_leftParenthesis_iff.1 ht) hopen
    | rightParenthesis => exact absurd (ofWord?_eq_rightParenthesis_iff.1 ht) hclose

/-! ## Rules -/

/-- A match that is a number. -/
def number? (w : List Char) : Option Token :=
  (Decimal.read? w).map .number

/-- The rules of a lexer: a pattern, and the token that a match of it stands for. -/
inductive Rule : RegularExpression Char → (List Char → Option Token) → Prop
  /-- A literal that starts with a digit. -/
  | whole : Rule Decimal.Pattern.wholePattern number?
  /-- A literal that starts with a point. -/
  | point : Rule Decimal.Pattern.pointPattern number?
  /-- The symbol of an operator. -/
  | operator (op : Operator) : Rule (char op.symbol) fun _ => some (.operator op)
  /-- The opening parenthesis. -/
  | leftParenthesis : Rule (char '(') fun _ => some .leftParenthesis
  /-- The closing parenthesis. -/
  | rightParenthesis : Rule (char ')') fun _ => some .rightParenthesis

/-- A text matches one of the rules. -/
def Matches (w : List Char) : Prop :=
  ∃ pattern token?, Rule pattern token? ∧ w ∈ pattern.matches'

/-- A text matches a rule, and stands for the token. -/
def StandsFor (w : List Char) (t : Token) : Prop :=
  ∃ pattern token?, Rule pattern token? ∧ w ∈ pattern.matches' ∧ token? w = some t

/-- **The rules say what words stand for.** -/
theorem standsFor_iff : StandsFor w t ↔ ofWord? w = some t := by
  constructor
  · rintro ⟨pattern, token?, hrule, hw, ht⟩
    cases hrule with
    | whole =>
      obtain ⟨x, hx, rfl⟩ := Option.map_eq_some_iff.1 ht
      exact ofWord?_eq_number_iff.2 ⟨Decimal.Pattern.mem_literal.2 (Or.inl hw), hx⟩
    | point =>
      obtain ⟨x, hx, rfl⟩ := Option.map_eq_some_iff.1 ht
      exact ofWord?_eq_number_iff.2 ⟨Decimal.Pattern.mem_literal.2 (Or.inr hw), hx⟩
    | operator op =>
      cases ht
      exact ofWord?_eq_operator_iff.2 (Decimal.Pattern.mem_char.1 hw)
    | leftParenthesis =>
      cases ht
      exact ofWord?_eq_leftParenthesis_iff.2 (Decimal.Pattern.mem_char.1 hw)
    | rightParenthesis =>
      cases ht
      exact ofWord?_eq_rightParenthesis_iff.2 (Decimal.Pattern.mem_char.1 hw)
  · intro h
    cases t with
    | number x =>
      obtain ⟨hw, hx⟩ := ofWord?_eq_number_iff.1 h
      have hnumber : number? w = some (.number x) := Option.map_eq_some_iff.2 ⟨x, hx, rfl⟩
      rcases Decimal.Pattern.mem_literal.1 hw with hw | hw
      · exact ⟨_, _, .whole, hw, hnumber⟩
      · exact ⟨_, _, .point, hw, hnumber⟩
    | operator op =>
      exact ⟨_, _, .operator op, Decimal.Pattern.mem_char.2 (ofWord?_eq_operator_iff.1 h), rfl⟩
    | leftParenthesis =>
      exact ⟨_, _, .leftParenthesis,
        Decimal.Pattern.mem_char.2 (ofWord?_eq_leftParenthesis_iff.1 h), rfl⟩
    | rightParenthesis =>
      exact ⟨_, _, .rightParenthesis,
        Decimal.Pattern.mem_char.2 (ofWord?_eq_rightParenthesis_iff.1 h), rfl⟩

/-- What matches a rule stands for a token. -/
theorem matches_iff : Matches w ↔ ∃ t, ofWord? w = some t := by
  constructor
  · rintro ⟨pattern, token?, hrule, hw⟩
    cases hrule with
    | whole =>
      obtain ⟨x, hx⟩ := exists_number_iff.2 (Decimal.Pattern.mem_literal.2 (Or.inl hw))
      exact ⟨_, hx⟩
    | point =>
      obtain ⟨x, hx⟩ := exists_number_iff.2 (Decimal.Pattern.mem_literal.2 (Or.inr hw))
      exact ⟨_, hx⟩
    | operator op => exact ⟨_, standsFor_iff.1 ⟨_, _, .operator op, hw, rfl⟩⟩
    | leftParenthesis => exact ⟨_, standsFor_iff.1 ⟨_, _, .leftParenthesis, hw, rfl⟩⟩
    | rightParenthesis => exact ⟨_, standsFor_iff.1 ⟨_, _, .rightParenthesis, hw, rfl⟩⟩
  · rintro ⟨t, ht⟩
    obtain ⟨pattern, token?, hrule, hw, -⟩ := standsFor_iff.2 ht
    exact ⟨pattern, token?, hrule, hw⟩

end Token

/-! ## Lexers -/

/-- What a lexer finds at the start of a text: nothing, or a token or an error, and the length
of the match. -/
abbrev Lexer :=
  List Char → Option (Except Unit Token × Nat)

/-- A lexer takes the longest match at the start of a text. -/
def TakesLongest (next : Lexer) : Prop :=
  ∀ w t n, next w = some (.ok t, n) ↔
    IsGreatest {k | k ≤ w.length ∧ Token.Matches (w.take k)} n ∧ Token.StandsFor (w.take n) t

/-- The token of a word: the first token that a lexer finds, if nothing is left behind it. -/
def lexWord (next : Lexer) (w : List Char) (p : Nat) : Except ParseError Token :=
  match next w with
  | some (.ok t, n) =>
    if n = w.length then .ok t else .error (.malformedToken (String.ofList w) p)
  | _ => .error (.malformedToken (String.ofList w) p)

section
variable {next : Lexer}

/-- The whole of a word is the longest match, if it matches. -/
theorem lexWord_of_standsFor (hnext : TakesLongest next) (h : Token.StandsFor w t) (p : Nat) :
    lexWord next w p = .ok t := by
  have hwhole : Token.StandsFor (w.take w.length) t := by rwa [List.take_length]
  have hmatches : Token.Matches (w.take w.length) :=
    Token.matches_iff.2 ⟨t, Token.standsFor_iff.1 hwhole⟩
  have hlongest : IsGreatest {k | k ≤ w.length ∧ Token.Matches (w.take k)} w.length :=
    ⟨⟨Nat.le_refl _, hmatches⟩, fun k hk => hk.1⟩
  rw [lexWord, (hnext w t w.length).2 ⟨hlongest, hwhole⟩]
  exact if_pos rfl

/-- **With a lexer, words are read as without one.** -/
theorem lexWord_eq_read (hnext : TakesLongest next) (w : List Char) (p : Nat) :
    lexWord next w p = Token.read w p := by
  rw [Token.read]
  cases ht : Token.ofWord? w with
  | some t => exact lexWord_of_standsFor hnext (Token.standsFor_iff.2 ht) p
  | none =>
    rw [lexWord]
    split
    · rename_i t n hfound
      -- a match of the whole word would stand for a token
      have hshort : n ≠ w.length := by
        rintro rfl
        have hstands := ((hnext w t _).1 hfound).2
        rw [List.take_length, Token.standsFor_iff, ht] at hstands
        cases hstands
      rw [if_neg hshort]
    · rfl

end

/-- The length of the longest match at the start of a text, or zero if there is none. -/
def longestMatch (w : List Char) : Nat :=
  Nat.findGreatest (fun k => (Token.ofWord? (w.take k)).isSome = true) w.length

/-- A lexer that tries all lengths. -/
def longestToken : Lexer := fun w =>
  (Token.ofWord? (w.take (longestMatch w))).map fun t => (.ok t, longestMatch w)

/-- **There is a lexer that takes the longest match.** -/
theorem takesLongest_longestToken : TakesLongest longestToken := by
  intro w t n
  have hmatches (k : Nat) : Token.Matches (w.take k) ↔ (Token.ofWord? (w.take k)).isSome = true :=
    Token.matches_iff.trans Option.isSome_iff_exists.symm
  simp only [hmatches, Token.standsFor_iff, longestToken, Option.map_eq_some_iff, Prod.mk.injEq,
    Except.ok.injEq]
  constructor
  · rintro ⟨t, ht, rfl, rfl⟩
    have hfound := Option.isSome_of_mem ht
    exact ⟨⟨⟨Nat.findGreatest_le _, hfound⟩, fun k hk => Nat.le_findGreatest hk.1 hk.2⟩, ht⟩
  · rintro ⟨⟨⟨hle, hn⟩, hgreatest⟩, ht⟩
    have hfound : (Token.ofWord? (w.take (longestMatch w))).isSome = true :=
      Nat.findGreatest_spec (P := fun k => (Token.ofWord? (w.take k)).isSome = true) hle hn
    obtain rfl : n = longestMatch w :=
      Nat.le_antisymm (Nat.le_findGreatest hle hn) (hgreatest ⟨Nat.findGreatest_le _, hfound⟩)
    exact ⟨t, ht, rfl, rfl⟩

/-! ## Values of a statistic -/

namespace Deviation

variable {words : List (List Char)} {xs : List Float} {e : ParseError}

/-- What a word is as a value: what it is as a number of an expression, or a special value. -/
def Reads (w : List Char) (x : Float) : Prop :=
  (∀ p, Token.read w p = .ok (.number x)) ∨ Decimal.Special w x

/-- Both readers of numbers agree on literals. -/
theorem reads_iff : Reads w x ↔ Decimal.read? w = some x := by
  have hliteral : (∀ p, Token.read w p = .ok (.number x)) ↔
      ∃ l, Decimal.Literal.ofText? w = some l ∧ l.value = x := by
    simp only [Token.read_eq_ok_iff, forall_const, Token.ofWord?_eq_number_iff,
      ← Decimal.Literal.isSome_ofText?_iff, Decimal.read?]
    cases Decimal.Literal.ofText? w <;> simp
  rw [Reads, hliteral, Decimal.read?_eq_some_iff]

/-- A word that is read is followed by the values of the later words. -/
theorem valuesFrom_cons (hx : Reads w x) (p : Nat) (later : List (List Char)) :
    valuesFrom p (w :: later) = (valuesFrom (p + 1) later).map (x :: ·) := by
  rw [valuesFrom, reads_iff.1 hx]

/-- At a word that is not read, reading stops. -/
theorem valuesFrom_of_not_reads (hw : ∀ x, ¬ Reads w x) (p : Nat) (later : List (List Char)) :
    valuesFrom p (w :: later) = .error (.malformedToken (String.ofList w) p) := by
  have hnone : Decimal.read? w = none :=
    Option.eq_none_iff_forall_ne_some.2 fun x hx => hw x (reads_iff.2 hx)
  rw [valuesFrom, hnone]

/-- A word is read as one value at most. -/
theorem eq_of_reads {y : Float} (hx : Reads w x) (hy : Reads w y) : x = y :=
  Option.some.inj ((reads_iff.1 hx).symm.trans (reads_iff.1 hy))

/-- The values are those of the words, in order. -/
theorem valuesFrom_eq_ok_iff :
    valuesFrom p words = .ok xs ↔ List.Forall₂ Reads words xs := by
  induction words generalizing p xs with
  | nil =>
    rw [valuesFrom, List.forall₂_nil_left_iff, Except.ok.injEq, eq_comm]
  | cons word later ih =>
    rw [List.forall₂_cons_left_iff]
    by_cases hword : ∃ x, Reads word x
    · obtain ⟨x, hx⟩ := hword
      rw [valuesFrom_cons hx]
      constructor
      · intro h
        cases hlater : valuesFrom (p + 1) later with
        | error e =>
          rw [hlater] at h
          cases h
        | ok ys =>
          rw [hlater] at h
          cases h
          exact ⟨x, ys, hx, ih.1 hlater, rfl⟩
      · rintro ⟨y, ys, hy, hys, rfl⟩
        rw [ih.2 hys, eq_of_reads hx hy]
        rfl
    · have hnot := not_exists.1 hword
      rw [valuesFrom_of_not_reads hnot]
      refine iff_of_false (fun h => ?_) ?_
      · cases h
      · rintro ⟨x, ys, hx, -⟩
        exact hnot x hx

/-- The error is that of the first word that is not read, with its position. -/
theorem valuesFrom_eq_error_iff :
    valuesFrom p words = .error e ↔
      ∃ earlier w later, words = earlier ++ w :: later ∧ (∀ v ∈ earlier, ∃ x, Reads v x) ∧
        (∀ x, ¬ Reads w x) ∧ e = .malformedToken (String.ofList w) (p + earlier.length) := by
  induction words generalizing p with
  | nil => simp [valuesFrom]
  | cons word later ih =>
    by_cases hword : ∃ x, Reads word x
    · obtain ⟨x, hx⟩ := hword
      have hlater : valuesFrom p (word :: later) = .error e ↔
          valuesFrom (p + 1) later = .error e := by
        rw [valuesFrom_cons hx]
        cases valuesFrom (p + 1) later <;> simp [Except.map]
      rw [hlater, ih]
      constructor
      · rintro ⟨earlier, w, rest, rfl, hearlier, hw, rfl⟩
        refine ⟨word :: earlier, w, rest, rfl, List.forall_mem_cons.2 ⟨⟨x, hx⟩, hearlier⟩, hw, ?_⟩
        rw [List.length_cons, Nat.add_right_comm, Nat.add_assoc]
      · rintro ⟨earlier, w, rest, hsplit, hearlier, hw, rfl⟩
        cases earlier with
        | nil =>
          cases hsplit
          exact absurd hx (hw x)
        | cons v earlier =>
          cases hsplit
          refine ⟨earlier, w, rest, rfl, (List.forall_mem_cons.1 hearlier).2, hw, ?_⟩
          rw [List.length_cons, Nat.add_right_comm, Nat.add_assoc]
    · have hnot := not_exists.1 hword
      rw [valuesFrom_of_not_reads hnot, Except.error.injEq, eq_comm]
      constructor
      · rintro rfl
        exact ⟨[], word, later, rfl, List.forall_mem_nil _, hnot, rfl⟩
      · rintro ⟨earlier, w, rest, hsplit, hearlier, hw, rfl⟩
        cases earlier with
        | nil =>
          cases hsplit
          rfl
        | cons v earlier =>
          cases hsplit
          exact absurd (hearlier word (List.mem_cons_self ..)) hword

end Deviation

/-! ## Reading -/

/-- **The grammar of words.**  With a lexer that takes the longest match, a word is a number
exactly if the whole of it matches a pattern of literals, and its value is the one that is read
for a decimal text.  It is an operator or a parenthesis exactly if it is this symbol, and
any other word is malformed.  The values of a statistic are read from a text exactly if each
of its words is such a number or a special value.  Otherwise the first other word is reported
with its position. -/
theorem reading_classified {next : Lexer} (hnext : TakesLongest next) :
    (∀ w p, lexWord next w p = Token.read w p ∧
      ((∃ x, Token.read w p = .ok (.number x)) ↔ w ∈ Decimal.Pattern.literal.matches') ∧
      (∀ x, Token.read w p = .ok (.number x) ↔
        w ∈ Decimal.Pattern.literal.matches' ∧ Decimal.read? w = some x) ∧
      (∀ op, Token.read w p = .ok (.operator op) ↔ w = [op.symbol]) ∧
      (Token.read w p = .ok .leftParenthesis ↔ w = ['(']) ∧
      (Token.read w p = .ok .rightParenthesis ↔ w = [')']) ∧
      (w ∉ Decimal.Pattern.literal.matches' → (∀ op : Operator, w ≠ [op.symbol]) →
        w ≠ ['('] → w ≠ [')'] →
        Token.read w p = .error (.malformedToken (String.ofList w) p))) ∧
    ∀ text,
      (∀ xs, Deviation.values text = .ok xs ↔
        List.Forall₂ Deviation.Reads (Text.words text.toList) xs) ∧
      ∀ e, Deviation.values text = .error e ↔
        ∃ earlier w later, Text.words text.toList = earlier ++ w :: later ∧
          (∀ v ∈ earlier, ∃ x, Deviation.Reads v x) ∧ (∀ x, ¬ Deviation.Reads w x) ∧
          e = .malformedToken (String.ofList w) earlier.length := by
  refine ⟨fun w p => ⟨lexWord_eq_read hnext w p, ?_, ?_, ?_, ?_, ?_, ?_⟩, fun text => ⟨?_, ?_⟩⟩
  · simp only [Token.read_eq_ok_iff, Token.exists_number_iff]
  · intro x
    rw [Token.read_eq_ok_iff, Token.ofWord?_eq_number_iff]
  · intro op
    rw [Token.read_eq_ok_iff, Token.ofWord?_eq_operator_iff]
  · rw [Token.read_eq_ok_iff, Token.ofWord?_eq_leftParenthesis_iff]
  · rw [Token.read_eq_ok_iff, Token.ofWord?_eq_rightParenthesis_iff]
  · intro hnumber hoperator hopen hclose
    exact Token.read_eq_error hnumber hoperator hopen hclose p
  · intro xs
    exact Deviation.valuesFrom_eq_ok_iff
  · intro e
    have herror : Deviation.values text = .error e ↔ _ := Deviation.valuesFrom_eq_error_iff
    simp only [Nat.zero_add] at herror
    exact herror

/-- An unfinished exponent: the longest match ends before it, so that the word is malformed.
A special value is no number of an expression, but a value of a statistic. -/
theorem reading_unfinished_exponent :
    TakesLongest longestToken ∧ longestMatch "1e".toList = 1 ∧
      lexWord longestToken "1e".toList 4 = .error (.malformedToken "1e" 4) ∧
      lexWord longestToken "-INF".toList 1 = .error (.malformedToken "-INF" 1) ∧
      Deviation.values "2. -INF" = .ok [2, Binary64.ofParts (.infinity .negative)] := by
  obtain ⟨hwords, htexts⟩ := reading_classified takesLongest_longestToken
  refine ⟨takesLongest_longestToken, by decide +kernel, ?_, ?_, ?_⟩
  · exact (hwords "1e".toList 4).1.trans (by decide +kernel)
  · exact (hwords "-INF".toList 1).1.trans (by decide +kernel)
  · have hsplit : Text.words "2. -INF".toList = ["2.".toList, "-INF".toList] := by decide +kernel
    have hnumber : Deviation.Reads "2.".toList 2 := Deviation.reads_iff.2 (by decide +kernel)
    have hspecial : Deviation.Reads "-INF".toList (Binary64.ofParts (.infinity .negative)) :=
      Deviation.reads_iff.2 (by decide +kernel)
    rw [(htexts "2. -INF").1, hsplit]
    exact .cons hnumber (.cons hspecial .nil)

end DeskCalculator
