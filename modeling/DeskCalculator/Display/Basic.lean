import DeskCalculator.Display.Keystroke
import DeskCalculator.Evaluation

/-!
# The display

The display shows a text that keys edit and that is replaced by its value.  The
text is the whole state: a failed computation leaves the text `ERROR`, which the
next key treats as an empty display.

A session is a display on which keys are struck, some of which edit the text as a
whole or compute its value.  It keeps the messages of failed computations.
-/

namespace DeskCalculator

/-- A display. -/
structure Display where
  /-- The text, its last character first. -/
  backward : List Char := []
  deriving DecidableEq, Repr

namespace Display

/-- The text shown in place of a value. -/
def errorChars : List Char :=
  "ERROR".toList

/-- The display that shows a text. -/
def ofChars (text : List Char) : Display :=
  ⟨text.reverse⟩

/-- The text of a display. -/
def chars (d : Display) : List Char :=
  d.backward.reverse

/-- The display that shows a string. -/
def ofText (text : String) : Display :=
  ofChars text.toList

/-- The text of a display, as a string. -/
def text (d : Display) : String :=
  String.ofList d.chars

/-! ## Editing -/

/-- The display that reports a failure. -/
def error : Display :=
  ofChars errorChars

/-- The display that the next key edits: a reported failure is cleared first. -/
def fresh (d : Display) : Display :=
  if d = error then {} else d

/-- The display after a key. -/
def press (d : Display) (key : Char) : Display :=
  match Keystroke.type? d.fresh.backward key with
  | some backward => ⟨backward⟩
  | none => d.fresh

/-- The display after keys. -/
def typeKeys (d : Display) (keys : List Char) : Display :=
  keys.foldl press d

/-- The display after its last character was erased. -/
def erase (d : Display) : Display :=
  ⟨Keystroke.erase d.fresh.backward⟩

/-- The empty display. -/
def clear (_ : Display) : Display :=
  {}

/-! ## Computing -/

/-- The text that reports the outcome of an evaluation. -/
def outcomeChars : Except CalculationError Number → List Char
  | .ok n => n.chars
  | .error _ => errorChars

/-- The value of the text, and the display that shows it. -/
def compute (d : Display) : Except CalculationError Number × Display :=
  let outcome := evaluateChars d.chars
  (outcome, ofChars (outcomeChars outcome))

end Display

/-! ## Sessions -/

/-- A display and the errors of the computations on it. -/
structure Session where
  /-- The display. -/
  display : Display := {}
  /-- The messages of errors, the first one first. -/
  errors : List String := []
  deriving DecidableEq, Repr

namespace Session

/-- The session with another display. -/
def withDisplay (s : Session) (display : Display) : Session :=
  { s with display }

/-- Compute the value of the display, and note an error. -/
def compute (s : Session) : Session :=
  match s.display.compute with
  | (.ok _, next) => s.withDisplay next
  | (.error e, next) => { display := next, errors := s.errors ++ [e.message] }

/-- The session after a key: `=` computes, `<` erases, `c` or `C` clears, blanks are
passed over, and all other keys are typed. -/
def strike (s : Session) (key : Char) : Session :=
  if key = '=' then s.compute
  else if key = '<' then s.withDisplay s.display.erase
  else if key = 'c' ∨ key = 'C' then s.withDisplay s.display.clear
  else if Text.isBlank key then s
  else s.withDisplay (s.display.press key)

/-- The session after keys struck on an empty display. -/
def ofKeys (keys : List Char) : Session :=
  keys.foldl strike {}

end Session

end DeskCalculator
