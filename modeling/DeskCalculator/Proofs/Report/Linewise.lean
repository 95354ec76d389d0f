import Mathlib.Data.List.Forall2
import DeskCalculator.Proofs.Report.Wording
import DeskCalculator.Proofs.Text.Lines

/-!
# Reports on expressions, line by line

An input with one expression per line is reported line by line: a newline cuts the input
into parts that are reported one after the other, and the report on an input has one
entry for each line that is not blank (`ofInput_linewise`).

The outcome of a line depends on its words alone (`valueOutcome_congr`,
`reversePolishOutcome_congr`).  Cutting at a newline may change the last line of the first
part, but not its words (`ofLines_append_newline`).  The entries that read `ERROR` are those
of failed lines, since no result and no sequence reads so (`lists_ofOutcomes`).
-/

namespace DeskCalculator

/-! ## Words alone -/

/-- The value of a text depends on its words alone. -/
theorem evaluateChars_congr {text other : List Char} (h : Text.words text = Text.words other) :
    evaluateChars text = evaluateChars other := by
  rw [evaluateChars, ReversePolish.ofChars, h]
  rfl

namespace Report

theorem valueOutcome_congr {text other : List Char} (h : Text.words text = Text.words other) :
    valueOutcome text = valueOutcome other := by
  rw [valueOutcome, evaluateChars_congr h]
  rfl

theorem reversePolishOutcome_congr {text other : List Char}
    (h : Text.words text = Text.words other) :
    reversePolishOutcome text = reversePolishOutcome other := by
  rw [reversePolishOutcome, ReversePolish.ofChars, h]
  rfl

/-- The report on a text without newlines has the outcome of this line. -/
theorem ofLines_of_no_newline (outcome : List Char → Except String String) {text : List Char}
    (hwords : Text.words text ≠ []) (h : '\n' ∉ text) :
    ofLines outcome text = ofOutcomes [outcome text] := by
  have hne : text ≠ [] := by
    rintro rfl
    exact hwords rfl
  rw [ofLines, Text.lines_of_no_newline hne h]
  simp [Text.isBlankLine_eq_false hwords]

/-! ## Outcomes of lines -/

@[simp] theorem output_append (r s : Report) : (r ++ s).output = r.output ++ s.output := rfl

@[simp] theorem errors_append (r s : Report) : (r ++ s).errors = r.errors ++ s.errors := rfl

theorem ofOutcomes_append (outcomes others : List (Except String String)) :
    ofOutcomes (outcomes ++ others) = ofOutcomes outcomes ++ ofOutcomes others := by
  rw [ofOutcomes, List.map_append, List.filterMap_append]
  rfl

/-- How outcomes of lines are worded: as single lines that depend on the words of the line
alone, and a text never as `ERROR`. -/
structure Worded (outcome : List Char → Except String String) : Prop where
  /-- Lines with the same words have the same outcome. -/
  congr : ∀ line other, Text.words line = Text.words other → outcome line = outcome other
  /-- No text reads `ERROR`. -/
  text_ne_error : ∀ line text, outcome line = .ok text → text ≠ "ERROR"
  /-- A text is a single line. -/
  oneLine_text : ∀ line text, outcome line = .ok text → OneLine text
  /-- So is a message. -/
  oneLine_message : ∀ line message, outcome line = .error message → OneLine message

theorem worded_valueOutcome : Worded valueOutcome where
  congr := fun _ _ h => valueOutcome_congr h
  text_ne_error := by
    intro line text h
    rw [valueOutcome] at h
    split at h <;> cases h
    exact Number.text_ne_error _
  oneLine_text := by
    intro line text h
    rw [valueOutcome] at h
    split at h <;> cases h
    exact Number.oneLine_text _
  oneLine_message := by
    intro line message h
    rw [valueOutcome] at h
    split at h <;> cases h
    rename_i e herror
    exact oneLine_of_evaluateChars herror

theorem worded_reversePolishOutcome : Worded reversePolishOutcome where
  congr := fun _ _ h => reversePolishOutcome_congr h
  text_ne_error := by
    intro line text h
    rw [reversePolishOutcome] at h
    split at h <;> cases h
    exact ReversePolish.text_ne_error _
  oneLine_text := by
    intro line text h
    rw [reversePolishOutcome] at h
    split at h <;> cases h
    exact ReversePolish.oneLine_text _
  oneLine_message := by
    intro line message h
    rw [reversePolishOutcome] at h
    split at h <;> cases h
    rename_i e herror
    exact ReversePolish.oneLine_of_ofChars herror

/-! ## Cutting at a newline -/

variable {outcome : List Char → Except String String}

theorem ofLines_eq (outcome : List Char → Except String String) (input : List Char) :
    ofLines outcome input = ofOutcomes ((Text.filledLines input).map outcome) := rfl

/-- **The report on two texts with a newline between them** is that on the first one,
followed by that on the second one. -/
theorem ofLines_append_newline (h : Worded outcome) (text other : List Char) :
    ofLines outcome (text ++ '\n' :: other) = ofLines outcome text ++ ofLines outcome other := by
  have hpieces (input : List Char) := Text.map_filledLines h.congr input
  rw [ofLines_eq, ofLines_eq, ofLines_eq, hpieces, hpieces, hpieces,
    Text.pieces_append_newline, List.filter_append, List.map_append, ofOutcomes_append]

/-! ## Entries and errors -/

/-- The entry shows the outcome of a line. -/
inductive Shows (outcome : List Char → Except String String) (line : List Char) :
    String → Prop where
  /-- The text of a successful line, which does not read `ERROR`. -/
  | text {text : String} : outcome line = .ok text → text ≠ "ERROR" → Shows outcome line text
  /-- `ERROR` for a failed line. -/
  | error {message : String} : outcome line = .error message → Shows outcome line "ERROR"

/-- The report lists the outcomes of lines. -/
structure Lists (outcome : List Char → Except String String) (lines : List (List Char))
    (r : Report) : Prop where
  /-- The output has one entry per line. -/
  entries : List.Forall₂ (Shows outcome) lines r.output
  /-- There is one error for each entry `ERROR`. -/
  errors_length : r.errors.length = r.output.count "ERROR"
  /-- The errors are the messages of the lines with such an entry, in order. -/
  errors : r.errors.map .error =
    ((lines.zip r.output).filter fun p => p.2 == "ERROR").map fun p => outcome p.1
  /-- Every entry is a single line. -/
  oneLine_output : ∀ entry ∈ r.output, OneLine entry
  /-- So is every error. -/
  oneLine_errors : ∀ message ∈ r.errors, OneLine message

variable {lines : List (List Char)} {line : List Char} {r : Report}

theorem lists_nil : Lists outcome [] {} where
  entries := .nil
  errors_length := rfl
  errors := rfl
  oneLine_output := by simp
  oneLine_errors := by simp

/-- A successful line adds its text to the output. -/
theorem Lists.cons_text {text : String} (h : Lists outcome lines r)
    (hline : outcome line = .ok text) (hne : text ≠ "ERROR") (hone : OneLine text) :
    Lists outcome (line :: lines) { r with output := text :: r.output } where
  entries := .cons (.text hline hne) h.entries
  errors_length := by simp [h.errors_length, hne]
  errors := by simp [h.errors, hne]
  oneLine_output := by
    intro entry hentry
    rcases List.mem_cons.1 hentry with rfl | hentry
    · exact hone
    · exact h.oneLine_output entry hentry
  oneLine_errors := h.oneLine_errors

/-- A failed line adds `ERROR` to the output and its message to the errors. -/
theorem Lists.cons_error {message : String} (h : Lists outcome lines r)
    (hline : outcome line = .error message) (hone : OneLine message) :
    Lists outcome (line :: lines)
      { output := "ERROR" :: r.output, errors := message :: r.errors } where
  entries := .cons (.error hline) h.entries
  errors_length := by simp [h.errors_length]
  errors := by simp [h.errors, hline]
  oneLine_output := by
    intro entry hentry
    rcases List.mem_cons.1 hentry with rfl | hentry
    · simp [OneLine]
    · exact h.oneLine_output entry hentry
  oneLine_errors := by
    intro other hother
    rcases List.mem_cons.1 hother with rfl | hother
    · exact hone
    · exact h.oneLine_errors other hother

theorem ofOutcomes_ok (text : String) (outcomes : List (Except String String)) :
    ofOutcomes (.ok text :: outcomes) =
      { ofOutcomes outcomes with output := text :: (ofOutcomes outcomes).output } := rfl

theorem ofOutcomes_error (message : String) (outcomes : List (Except String String)) :
    ofOutcomes (.error message :: outcomes) =
      { output := "ERROR" :: (ofOutcomes outcomes).output
        errors := message :: (ofOutcomes outcomes).errors } := rfl

/-- **A report on lines lists their outcomes.** -/
theorem lists_ofOutcomes (h : Worded outcome) (lines : List (List Char)) :
    Lists outcome lines (ofOutcomes (lines.map outcome)) := by
  induction lines with
  | nil => exact lists_nil
  | cons line lines ih =>
    rw [List.map_cons]
    cases hline : outcome line with
    | ok text =>
      rw [ofOutcomes_ok]
      exact ih.cons_text hline (h.text_ne_error line text hline) (h.oneLine_text line text hline)
    | error message =>
      rw [ofOutcomes_error]
      exact ih.cons_error hline (h.oneLine_message line message hline)

/-! ## Inputs -/

/-- The outcome of a line, in a mode that reads one expression per line. -/
def lineOutcome? : Mode → Option (List Char → Except String String)
  | .values => some valueOutcome
  | .reversePolish => some reversePolishOutcome
  | .keys | .deviation => none

theorem worded_of_lineOutcome? {mode : Mode} (h : lineOutcome? mode = some outcome) :
    Worded outcome := by
  cases mode <;> cases h
  · exact worded_valueOutcome
  · exact worded_reversePolishOutcome

theorem ofInput_eq {mode : Mode} (h : lineOutcome? mode = some outcome) (input : String) :
    ofInput mode input = ofLines outcome input.toList := by
  cases mode <;> cases h <;> rfl

/-- **Expressions are reported line by line.**  The report on two inputs with a newline
between them is that on the first one, followed by that on the second one.  The report on
an input lists the outcomes of its lines that are not blank. -/
theorem ofInput_linewise {mode : Mode} (h : lineOutcome? mode = some outcome) :
    (∀ a b : String, ofInput mode (a ++ "\n" ++ b) = ofInput mode a ++ ofInput mode b) ∧
      ∀ input : String, Lists outcome (Text.filledLines input.toList) (ofInput mode input) := by
  have hworded := worded_of_lineOutcome? h
  constructor
  · intro a b
    have hcut : (a ++ "\n" ++ b).toList = a.toList ++ '\n' :: b.toList := by simp
    rw [ofInput_eq h, ofInput_eq h, ofInput_eq h, hcut, ofLines_append_newline hworded]
  · intro input
    rw [ofInput_eq h, ofLines_eq]
    exact lists_ofOutcomes hworded (Text.filledLines input.toList)

/-- Before the newline the carriage return goes with it; at the end of the input it is
part of the line, as a blank. -/
theorem ofInput_linewise_carriage_return :
    lineOutcome? .values = some valueOutcome ∧
      ofInput .values ("1 / 0\r" ++ "\n" ++ "\r\n2 +x\n3 ! \r") =
        ofInput .values "1 / 0\r" ++ ofInput .values "\r\n2 +x\n3 ! \r" ∧
      Lists valueOutcome (Text.filledLines "1 / 0\r".toList) (ofInput .values "1 / 0\r") := by
  obtain ⟨hcut, hlists⟩ := ofInput_linewise (show lineOutcome? .values = some valueOutcome from rfl)
  exact ⟨rfl, hcut _ _, hlists _⟩

example : ofInput .values "1 / 0\r\n\r\n2 +x\n3 ! \r" =
    { output := ["ERROR", "ERROR", "6"]
      errors := ["Division by zero: 1 / 0.",
        "Error at token 1: '+x' is not a number or an operator."] } := by decide +kernel

end Report
end DeskCalculator
