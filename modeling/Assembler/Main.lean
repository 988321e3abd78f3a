import Assembler.CommandLine

/-!
# The program

Reads the arguments and the program file, and writes the image or the report.
-/

namespace Assembler

/-- The text of a file, or none if it cannot be read. -/
def readText (path : String) : IO (Option String) := do
  try
    let text ← IO.FS.readFile path
    return some text
  catch _ => return none

/-- Reports a failure and gives its exit code. -/
def fail (message : String) : IO UInt32 := do
  IO.eprintln ("Error: " ++ message)
  return 1

/-- Writes the result of a command. -/
def deliver (inv : Invocation) : Output → IO UInt32
  | .report text => do
    IO.print text
    return 0
  | .image bytes =>
    match inv.command with
    | .build _ output => do
      try
        IO.FS.writeBinFile output ⟨bytes⟩
        return 0
      catch e => fail (toString e)
    | .symbols _ _ => return 0

end Assembler

open Assembler in
/-- Runs a command. Arguments that are not understood have exit code 2. -/
def main (args : List String) : IO UInt32 := do
  match Invocation.parse? args with
  | none => do
    IO.eprintln "usage: [--bits BITS] [--format FORMAT] build PROGRAM -o FILE"
    IO.eprintln "       [--bits BITS] [--format FORMAT] symbols PROGRAM [--output FORMAT]"
    return 2
  | some inv =>
    match inv.run (← readText inv.command.input) with
    | .error e => fail e.message
    | .ok output => deliver inv output
