import Assembler.Blank
import Assembler.Program.Reader
import Assembler.Report

/-!
# The command line

    [--bits 16|32|64] [--format flat|relocatable] build PROGRAM -o FILE
    [--bits 16|32|64] [--format flat|relocatable] symbols PROGRAM [--output text|json]

`Invocation.parse?` reads the arguments and `Invocation.run` does the work on the text of the
program. Neither touches a file.
-/

namespace Assembler

/-- What to do with a program. -/
inductive Command
  /-- Assemble it and write the image to a file. -/
  | build (input output : String)
  /-- Assemble it and print its symbols and relocations. -/
  | symbols (input : String) (asJson : Bool)
deriving DecidableEq, Repr

/-- A command with its options. -/
structure Invocation where
  /-- The mode that replaces the program's own. -/
  bits : Option Mode
  container : Container
  command : Command
deriving DecidableEq, Repr

/-! ## Arguments -/

/-- Reads a decimal number below `2 ^ 32`, with or without a plus sign. -/
def unsigned? (text : String) : Option Nat :=
  let digits :=
    match text.toList with
    | '+' :: rest => rest
    | cs => cs
  if digits.isEmpty || !digits.all Char.isDigit then none
  else
    let n := Json.digitsValue digits
    if n < UInt32.size then some n else none

/-- Reads a number of bits, with white space around it allowed. -/
def bits? (text : String) : Option Mode := (unsigned? (trimBlank text)).bind Mode.ofBits?

/-- Reads the name of a container. -/
def container? : String → Option Container
  | "flat" => some .flat
  | "relocatable" => some .relocatable
  | _ => none

/-- Reads the name of an output format, and says whether it is JSON. -/
def asJson? : String → Option Bool
  | "text" => some false
  | "json" => some true
  | _ => none

/-- Whether an argument is an option and not a value. -/
def isOption (arg : String) : Bool := arg.startsWith "-" && arg ≠ "-"

/-- The value of an option at the head of the arguments, if it is that one: joined to its name, or
the next argument. -/
def option? (name : String) : List String → Option (String × List String)
  | [] => none
  | arg :: rest =>
    if arg.startsWith (name ++ "=") then some ((arg.drop (name.length + 1)).toString, rest)
    else if arg = name then
      match rest with
      | value :: rest => if isOption value then none else some (value, rest)
      | [] => none
    else none

/-- Reads the arguments after a command: one positional argument, and values of the option, each at
most once. -/
def commandArgs? (names : List String) :
    (bound : Nat) → (input value : Option String) → List String →
    Option (Option String × Option String)
  | _, input, value, [] => some (input, value)
  | 0, _, _, _ :: _ => none
  | bound + 1, input, value, arg :: rest =>
    match names.findSome? fun name => option? name (arg :: rest) with
    | some (v, rest) =>
      if value.isSome then none else commandArgs? names bound input (some v) rest
    | none =>
      if isOption arg || input.isSome then none else commandArgs? names bound (some arg) value rest

/-- Reads a command and its arguments. -/
def Command.parse? : List String → Option Command
  | "build" :: args => do
    let (input, output) ← commandArgs? ["--output", "-o"] args.length none none args
    some (.build (← input) (← output))
  | "symbols" :: args => do
    let (input, format) ← commandArgs? ["--output"] args.length none none args
    match format with
    | none => some (.symbols (← input) false)
    | some format => some (.symbols (← input) (← asJson? format))
  | _ => none

namespace Invocation

/-- Reads options up to the command. Each may be given once. -/
def parseFrom? : (bound : Nat) → (bits : Option Mode) → (container : Option Container) →
    List String → Option Invocation
  | 0, _, _, _ => none
  | bound + 1, bits, container, args =>
    match option? "--bits" args, option? "--format" args with
    | some (value, rest), _ => do
      if bits.isSome then none else parseFrom? bound (some (← bits? value)) container rest
    | none, some (value, rest) => do
      if container.isSome then none
      else parseFrom? bound bits (some (← container? value)) rest
    | none, none => do some ⟨bits, container.getD .flat, ← Command.parse? args⟩

/-- Reads the arguments, or none if they are not understood. -/
def parse? (args : List String) : Option Invocation :=
  parseFrom? (args.length + 1) none none args

end Invocation

/-! ## Work -/

/-- Cause of a failed command. -/
inductive CommandError
  | reading (path : String)
  | parsing (path : String)
  | assembly (cause : AssemblyError)
deriving DecidableEq, Repr

/-- The cause in words. -/
def CommandError.message : CommandError → String
  | .reading path => "reading " ++ path
  | .parsing path => "parsing " ++ path
  | .assembly cause => cause.message

/-- What a command results in. -/
inductive Output
  | image (bytes : Array UInt8)
  | report (text : String)
deriving DecidableEq, Repr

/-- The program file that a command is about. -/
def Command.input : Command → String
  | .build input _ => input
  | .symbols input _ => input

namespace Invocation

/-- Does what is asked for, given the text of the program file if it could be read. -/
def run (inv : Invocation) (text : Option String) : Except CommandError Output := do
  let path := inv.command.input
  let some text := text | .error (.reading path)
  let some program := Program.parse? text | .error (.parsing path)
  let obj := program.toObject inv.container inv.bits
  match inv.command with
  | .build _ _ =>
    match obj.assemble (.new none) with
    | (.error e, _, _) => .error (.assembly e)
    | (.ok _, _, sink) => .ok (.image sink.kept)
  | .symbols _ asJson =>
    match obj.assemble .discard with
    | (.error e, _, _) => .error (.assembly e)
    | (.ok _, obj, _) =>
      let report := Report.ofObject obj
      .ok (.report (if asJson then report.toJson.pretty ++ "\n" else report.text))

end Invocation

end Assembler
