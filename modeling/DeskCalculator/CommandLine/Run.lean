import DeskCalculator.CommandLine.Arguments

/-!
# Runs of the command

A run reads its arguments and one input, and ends with an exit code and the texts
for the two output streams.
-/

namespace DeskCalculator
namespace CommandLine

/-- The end of a run. -/
structure Outcome where
  /-- The exit code. -/
  exitCode : UInt8
  /-- The text for the standard output. -/
  standardOutput : String := ""
  /-- The text for the standard error. -/
  standardError : String := ""
  deriving DecidableEq, Repr

namespace Outcome

/-- Lines, each with a newline after it. -/
def unlines (lines : List String) : String :=
  String.join (lines.map (· ++ "\n"))

/-- The end of a run that stopped at its arguments. -/
def ofStop : Stop → Outcome
  | .version => { exitCode := 0, standardOutput := "redcalc 0.1.0\n" }
  | .misuse => { exitCode := 2, standardError := "Usage: redcalc [OPTIONS] [CONTENTS]\n" }

/-- The end of a run whose input could not be read. -/
def ofReadFailure (failure : ReadFailure) : Outcome :=
  { exitCode := 1, standardError := "Failed to read the input: " ++ failure.message ++ "\n" }

/-- The end of a run with a report. -/
def ofReport (report : Report) : Outcome :=
  { exitCode := if report.isSuccess then 0 else 1
    standardOutput := unlines report.output
    standardError := unlines report.errors }

end Outcome

/-- The end of a run whose sources are read by `read`, in any monad. -/
def runWith {m : Type → Type} [Monad m] (read : Source → m (Except ReadFailure String))
    (arguments : List String) : m Outcome :=
  match Arguments.read arguments with
  | .error stop => pure (.ofStop stop)
  | .ok a => do
    match ← read a.source with
    | .error failure => pure (.ofReadFailure failure)
    | .ok input => pure (.ofReport (Report.ofInput a.mode input))

/-- Read a source in a folder, with a given standard input. -/
def Folder.readSource (f : Folder) (standardInput : String) :
    Source → Except ReadFailure String
  | .file path => f.read path
  | .text contents => .ok contents
  | .standardInput => .ok standardInput

/-- The end of a run in a folder, with a given standard input. -/
def runIn (f : Folder) (standardInput : String) (arguments : List String) : Outcome :=
  Id.run (runWith (fun source => pure (f.readSource standardInput source)) arguments)

end CommandLine
end DeskCalculator
