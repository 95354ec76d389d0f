import DeskCalculator.Proofs.Display.Typing
import DeskCalculator.Proofs.Report.Linewise

/-!
# Sessions that type and compute

Keys without a command of their own are typed, blanks among them included, since no
rule accepts a blank (`ofKeys_eq`).  If `=` is struck in the end, the report is that
on the typed text as a line (`report_ofKeys_compute`).  So typing an expression and
computing it is the same as evaluating its words.
-/

namespace DeskCalculator
namespace Typing

open Line

/-- The keys that act on the text as a whole. -/
def commands : List Char :=
  ['=', '<', 'c', 'C']

theorem isIgnored_of_isBlank {key : Char} (h : Text.isBlank key = true) :
    isIgnored key = true := by
  have hword (t : Token) : Token.ofWord? [key] ≠ some t := by
    intro ht
    have hletter := (Token.isWord_of_ofWord? ht).2 key (List.mem_singleton_self _)
    rw [h] at hletter
    cases hletter
  have hsymbol : Operator.ofSymbol? key = none := by
    cases hop : Operator.ofSymbol? key with
    | none => rfl
    | some op =>
      rw [← Operator.symbol_of_ofSymbol? hop] at hword
      exact absurd (Token.ofWord?_symbol op) (hword _)
  have hopen : key ≠ '(' := by
    rintro rfl
    exact hword _ Token.ofWord?_leftParenthesis
  have hclose : key ≠ ')' := by
    rintro rfl
    exact hword _ Token.ofWord?_rightParenthesis
  have hdigit : isDigitOrPoint key = false := by
    cases hd : isDigitOrPoint key with
    | false => rfl
    | true =>
      rw [Text.isBlank_eq_false_of_isDigitOrPoint hd] at h
      cases h
  simp [isIgnored, hsymbol, hopen, hclose, hdigit]

/-- The session that shows the text of a line. -/
def session (line : Line) : Session :=
  { display := { backward := backward line } }

theorem strike_session {line : Line} (h : WellFormed line) {key : Char} (hkey : key ∉ commands) :
    (session line).strike key = session (press line key) := by
  simp only [commands, List.mem_cons, List.not_mem_nil, or_false, not_or] at hkey
  obtain ⟨hcompute, herase, hclear, hclear'⟩ := hkey
  rw [Session.strike, if_neg hcompute, if_neg herase, if_neg (not_or.2 ⟨hclear, hclear'⟩)]
  split
  · rename_i hblank
    rw [press_ignored (isIgnored_of_isBlank hblank)]
  · exact congrArg (session line).withDisplay (press_backward h key)

theorem foldl_strike_session {line : Line} (h : WellFormed line) {keys : List Char}
    (hkeys : ∀ key ∈ keys, key ∉ commands) :
    keys.foldl Session.strike (session line) = session (typeKeys line keys) := by
  induction keys generalizing line with
  | nil => rfl
  | cons key keys ih =>
    rw [List.foldl_cons, strike_session h (hkeys key (List.mem_cons_self ..))]
    exact ih (wellFormed_press h key) fun k hk => hkeys k (List.mem_cons_of_mem _ hk)

/-- **Keys that are no commands are typed.** -/
theorem ofKeys_eq {keys : List Char} (hkeys : ∀ key ∈ keys, key ∉ commands) :
    Session.ofKeys keys = { display := Display.typeKeys {} keys } := by
  have htyped : Display.typeKeys {} keys = { backward := backward (typeKeys [] keys) } :=
    typeKeys_backward .nil keys
  rw [htyped]
  exact foldl_strike_session .nil hkeys

@[simp] theorem text_ofChars (text : List Char) :
    (Display.ofChars text).text = String.ofList text := by
  rw [Display.text, Display.chars, Display.ofChars, List.reverse_reverse]

/-- Keys that compute in the end report the outcome of the typed text. -/
theorem report_ofKeys_compute {keys : List Char} (hkeys : ∀ key ∈ keys, key ∉ commands) :
    Report.ofKeys (keys ++ ['=']) =
      Report.ofOutcomes [Report.valueOutcome (Display.typeKeys {} keys).chars] := by
  have hsession : Session.ofKeys (keys ++ ['=']) =
      Session.compute { display := Display.typeKeys {} keys } := by
    rw [← ofKeys_eq hkeys, Session.ofKeys, List.foldl_append]
    rfl
  rw [Report.ofKeys, hsession]
  simp only [Session.compute, Display.compute, Report.valueOutcome]
  cases evaluateChars (Display.typeKeys {} keys).chars with
  | ok n => simp [Session.withDisplay, Display.outcomeChars, Report.ofOutcomes, Report.line,
      Report.message?, Number.text]
  | error e => simp [Display.outcomeChars, Report.ofOutcomes, Report.line, Report.message?]

/-! ## Typing and evaluating -/

theorem ne_nil_of_typable {phrase : Phrase} {place : Place} {words : List (List Char)}
    (h : Typable phrase place words) : words ≠ [] := by
  induction h with
  | operand _ ih => exact ih
  | term _ ih => exact ih
  | _ => simp

/-- **Typing agrees with evaluating.**  The keys of a typable expression, with
ignored keys anywhere and other binary operators before a binary operator, leave
the words of the expression on the display.  If no key is a command, the report on
the keys and `=` is the report on the words, joined by spaces. -/
theorem report_keys_eq_report_values {words : List (List Char)} {keys : List Char}
    (hwords : Typable .expression .start words)
    (hkeys : Spells words (keys.filter fun key => !isIgnored key)) :
    Text.words (Display.typeKeys {} keys).chars = words ∧
      ((∀ key ∈ keys, key ∉ commands) →
        Report.ofInput .keys (String.ofList (keys ++ ['='])) =
          Report.ofInput .values (String.ofList ([' '].intercalate words))) := by
  have htyped := words_typeKeys hwords hkeys
  have hjoined := Text.joined_intercalate (ne_nil_of_typable hwords)
  have hisWord : ∀ w ∈ words, Text.IsWord w := fun w hw =>
    Text.isWord_of_mem_words (by rwa [htyped])
  have hline : Text.words ([' '].intercalate words) = words := Text.words_of_joined hjoined hisWord
  refine ⟨htyped, ?_⟩
  intro hcommands
  have hnewline : '\n' ∉ [' '].intercalate words := fun hmem =>
    absurd (Text.eq_space_of_mem_intercalate hisWord hmem (by decide)) (by decide)
  have hne : Text.words ([' '].intercalate words) ≠ [] := by
    rw [hline]
    exact ne_nil_of_typable hwords
  simp only [Report.ofInput, String.toList_ofList]
  rw [report_ofKeys_compute hcommands, Report.ofLines_of_no_newline _ hne hnewline,
    Report.valueOutcome_congr (htyped.trans hline.symm)]

/-- The `*` is replaced by the `+`, and the `x` and the blank are ignored. -/
theorem report_keys_eq_report_values_group :
    Text.words (Display.typeKeys {} "-5 *+(x3)!".toList).chars =
        [['-', '5'], ['+'], ['('], ['3'], [')'], ['!']] ∧
      Report.ofInput .keys (String.ofList ("-5 *+(x3)!".toList ++ ['='])) =
        Report.ofInput .values
          (String.ofList ([' '].intercalate [['-', '5'], ['+'], ['('], ['3'], [')'], ['!']])) := by
  have hkeys : "-5 *+(x3)!".toList = ['-', '5', ' ', '*', '+', '(', 'x', '3', ')', '!'] := by
    decide +kernel
  have hfive : IsDecimal ['5'] :=
    ⟨List.all_eq_true.1 rfl, by decide, '5', List.mem_singleton_self _, rfl⟩
  have hthree : IsDecimal ['3'] :=
    ⟨List.all_eq_true.1 rfl, by decide, '3', List.mem_singleton_self _, rfl⟩
  have hgroup : Typable .operand .afterOperator [['('], ['3'], [')']] :=
    .group (by simp) (.term (.operand (.number hthree)))
  have hright : Typable .term .afterOperator [['('], ['3'], [')'], ['!']] :=
    .factorial (.operand hgroup)
  have hleft : Typable .expression .start [['-', '5']] :=
    .term (.operand (.signed (by simp) hfive))
  have hwords : Typable .expression .start [['-', '5'], ['+'], ['('], ['3'], [')'], ['!']] :=
    .binary .add hleft hright
  have hspells : Spells [['-', '5'], ['+'], ['('], ['3'], [')'], ['!']]
      ['-', '5', '*', '+', '(', '3', ')', '!'] := by
    have hothers : ∀ c ∈ ['*'], Keystroke.isBinarySymbol c = true :=
      List.all_eq_true.1 rfl
    refine .word ['-', '5'] (.replacing .add hothers ?_)
    exact .word ['('] (.word ['3'] (.word [')'] (.word ['!'] .nil)))
  have hfilter : ("-5 *+(x3)!".toList.filter fun key => !isIgnored key) =
      ['-', '5', '*', '+', '(', '3', ')', '!'] := by
    rw [hkeys]
    decide
  rw [← hfilter] at hspells
  obtain ⟨htyped, hreport⟩ := report_keys_eq_report_values hwords hspells
  refine ⟨htyped, hreport ?_⟩
  rw [hkeys]
  simp [commands]

end Typing
end DeskCalculator
