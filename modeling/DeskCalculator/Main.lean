import DeskCalculator.CommandLine.Run

/-!
# The command

The outer layer: it reads files and the standard input, and prints what a run
ends with.
-/

namespace DeskCalculator
namespace CommandLine

/-- The cause that an error of the system stands for.  Codes of the system come
with either sign. -/
def ReadFailure.ofSystem : IO.Error → ReadFailure
  | .noFileOrDirectory .. => .noSuchFile
  | .inappropriateType _ code _ => if code = 21 ∨ code = -21 then .isFolder else .notAFolder
  | error => .other error.toString

/-- The text that was read, if it is encoded properly. -/
def decode (bytes : ByteArray) : Except ReadFailure String :=
  match String.fromUTF8? bytes with
  | some text => .ok text
  | none => .error .notText

/-- Read a source of the running system. -/
def readSource : Source → IO (Except ReadFailure String)
  | .text contents => return .ok contents
  | .standardInput => do
    try
      return decode (← (← IO.getStdin).readBinToEnd)
    catch error => return .error (.ofSystem error)
  | .file path => do
    try
      return decode (← IO.FS.readBinFile path)
    catch error => return .error (.ofSystem error)

end CommandLine
end DeskCalculator

open DeskCalculator.CommandLine in
/-- Run the command. -/
def main (arguments : List String) : IO UInt32 := do
  let outcome ← runWith readSource arguments
  (← IO.getStdout).putStr outcome.standardOutput
  (← IO.getStderr).putStr outcome.standardError
  return outcome.exitCode.toUInt32
