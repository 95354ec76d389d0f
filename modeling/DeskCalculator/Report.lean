import DeskCalculator.Deviation
import DeskCalculator.Display.Basic

/-!
# Reports

A report holds the lines of output and the messages of the errors that a whole
input leads to.  The input is read as one expression per line, as keys typed on a
display, or as the numbers of a sample.
-/

namespace DeskCalculator

/-- Lines of output, and messages of errors. -/
structure Report where
  /-- The lines of output. -/
  output : List String := []
  /-- The messages of errors. -/
  errors : List String := []
  deriving DecidableEq, Repr

/-- How an input is read. -/
inductive Mode where
  /-- One expression per line, reported by its value. -/
  | values
  /-- One expression per line, reported in reverse Polish order. -/
  | reversePolish
  /-- Keys typed on a display. -/
  | keys
  /-- The numbers of a sample. -/
  | deviation
  deriving DecidableEq, Repr

namespace Report

/-- Did the run report no error? -/
def isSuccess (r : Report) : Bool :=
  r.errors.isEmpty

/-- One report after another. -/
instance : Append Report where
  append r s := { output := r.output ++ s.output, errors := r.errors ++ s.errors }

/-! ## Lines of expressions -/

/-- The line that reports an outcome in its place. -/
def line : Except String String → String
  | .ok text => text
  | .error _ => String.ofList Display.errorChars

/-- The message of a failed outcome. -/
def message? : Except String String → Option String
  | .ok _ => none
  | .error message => some message

/-- The report of outcomes, one line of output each. -/
def ofOutcomes (outcomes : List (Except String String)) : Report :=
  { output := outcomes.map line, errors := outcomes.filterMap message? }

/-- The value of an expression or the message of its error. -/
def valueOutcome (text : List Char) : Except String String :=
  match evaluateChars text with
  | .ok n => .ok n.text
  | .error e => .error e.message

/-- The reverse Polish order of an expression or the message of its error. -/
def reversePolishOutcome (text : List Char) : Except String String :=
  match ReversePolish.ofChars text with
  | .ok tokens => .ok (ReversePolish.text tokens)
  | .error e => .error e.message

/-- The report on an input with one expression per line.  Blank lines are passed
over. -/
def ofLines (outcome : List Char → Except String String) (input : List Char) : Report :=
  ofOutcomes (((Text.lines input).filter fun l => !Text.isBlankLine l).map outcome)

/-! ## Keys -/

/-- The report on keys typed on an empty display: the text at the end. -/
def ofKeys (keys : List Char) : Report :=
  let s := Session.ofKeys keys
  { output := [s.display.text], errors := s.errors }

/-! ## Samples -/

/-- The sample standard deviation of the numbers in a text, or the message of the
error. -/
def deviationOutcome (text : List Char) : Except String String :=
  match Deviation.valuesOfChars text with
  | .error e => .error e.message
  | .ok values =>
    match Deviation.sample values with
    | .error e => .error e.message
    | .ok x => .ok (Decimal.text x)

/-- The report on a sample: its deviation, or nothing but an error. -/
def ofSample (text : List Char) : Report :=
  match deviationOutcome text with
  | .ok line => { output := [line] }
  | .error message => { errors := [message] }

/-! ## All modes -/

/-- The report on an input read in a mode. -/
def ofInput (mode : Mode) (input : String) : Report :=
  match mode with
  | .values => ofLines valueOutcome input.toList
  | .reversePolish => ofLines reversePolishOutcome input.toList
  | .keys => ofKeys input.toList
  | .deviation => ofSample input.toList

end Report
end DeskCalculator
