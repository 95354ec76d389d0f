import DeskCalculator.CommandLine.Source
import DeskCalculator.Report

/-!
# Arguments

Arguments are read from left to right.  Flags may stand before and after the one
text argument, short flags may share a dash, and `--` ends the flags.  The first
argument that is not understood, or that asks for the version, ends the reading.
-/

namespace DeskCalculator
namespace CommandLine

/-- A flag. -/
inductive Flag where
  /-- The text argument is the path of a file. -/
  | file
  /-- The input is typed on a display. -/
  | keys
  /-- The deviation of the input is printed. -/
  | deviation
  /-- The reverse Polish order of each expression is printed. -/
  | reversePolish
  deriving DecidableEq, Repr

/-- The flag that a letter stands for. -/
def Flag.ofLetter? : Char → Option Flag
  | 'f' => some .file
  | 'k' => some .keys
  | 'd' => some .deviation
  | 'p' => some .reversePolish
  | _ => none

/-- The flag with a name. -/
def Flag.ofName? (name : List Char) : Option Flag :=
  if name = "file".toList then some .file
  else if name = "keys".toList then some .keys
  else if name = "deviation".toList then some .deviation
  else if name = "postfix".toList then some .reversePolish
  else none

/-- Why the reading of arguments ends early. -/
inductive Stop where
  /-- The arguments are not understood. -/
  | misuse
  /-- The version is asked for. -/
  | version
  deriving DecidableEq, Repr

/-- The arguments read so far. -/
structure Arguments where
  /-- The flags. -/
  flags : List Flag := []
  /-- The text argument. -/
  text : Option String := none
  deriving DecidableEq, Repr

namespace Arguments

/-- Is a flag given? -/
def has (a : Arguments) (flag : Flag) : Bool :=
  a.flags.contains flag

/-- One more flag, which may be given only once. -/
def addFlag (a : Arguments) : Option Flag → Except Stop Arguments
  | none => .error .misuse
  | some flag => if a.has flag then .error .misuse else .ok { a with flags := flag :: a.flags }

/-- The flag of one letter. -/
def addLetter (a : Arguments) (letter : Char) : Except Stop Arguments :=
  if letter = 'V' then .error .version else a.addFlag (Flag.ofLetter? letter)

/-- The text argument, which may be given only once. -/
def addText (a : Arguments) (text : String) : Except Stop Arguments :=
  if a.text.isSome then .error .misuse else .ok { a with text := some text }

/-- One more argument.  A dash alone is a text. -/
def add (a : Arguments) (argument : String) : Except Stop Arguments :=
  match argument.toList with
  | '-' :: '-' :: name =>
    if name = "version".toList then .error .version else a.addFlag (Flag.ofName? name)
  | '-' :: letter :: letters => (letter :: letters).foldlM addLetter a
  | _ => a.addText argument

/-- The arguments with more arguments after them. -/
def addAll (a : Arguments) : List String → Except Stop Arguments
  | [] => .ok a
  | argument :: later =>
    if argument = "--" then later.foldlM addText a
    else
      match a.add argument with
      | .ok next => next.addAll later
      | .error stop => .error stop

/-- Do the flags ask for two modes at once? -/
def conflict (a : Arguments) : Bool :=
  (a.has .keys && a.has .deviation) || (a.has .reversePolish && a.has .keys) ||
    (a.has .reversePolish && a.has .deviation)

/-- The arguments that a command line gives. -/
def read (arguments : List String) : Except Stop Arguments :=
  match ({} : Arguments).addAll arguments with
  | .ok a => if a.conflict then .error .misuse else .ok a
  | .error stop => .error stop

/-- The mode that the flags choose. -/
def mode (a : Arguments) : Mode :=
  if a.has .deviation then .deviation
  else if a.has .keys then .keys
  else if a.has .reversePolish then .reversePolish
  else .values

/-- The source that arguments choose. -/
def source (a : Arguments) : Source :=
  match a.text with
  | none => .standardInput
  | some text => if a.has .file then .file text else .text text

end Arguments
end CommandLine
end DeskCalculator
