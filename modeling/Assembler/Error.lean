import Assembler.EncodeError
import Assembler.Expr.Error

/-!
# Why an assembly fails

The causes, and the wording of each in one place. Causes that arise inside an expression or an
instruction are reported with the text of the place where they arose.
-/

namespace Assembler

/-- How far an object file has come. -/
inductive Stage
  | fresh
  | constructed
  | emitted
deriving DecidableEq, Repr

/-- The stage as it reads in a message. -/
def Stage.name : Stage → String
  | .fresh => "fresh"
  | .constructed => "constructed"
  | .emitted => "emitted"

/-- What an object file can be asked to do. -/
inductive Pass
  | construct
  | emit
deriving DecidableEq, Repr

/-- The pass as it reads in a message. -/
def Pass.name : Pass → String
  | .construct => "construct"
  | .emit => "emit"

/-- Something the container cannot express. -/
inductive ContainerError
  | exportedSymbol (identifier : String)
  | importedSymbol (identifier : String)
  | undefinedSymbol (identifier : String)
  | fixedStart (name : String)
deriving DecidableEq, Repr

/-- A statement or section that asks for something impossible. -/
inductive ArgumentError
  | notPowerOfTwo (boundary : UInt64)
  | overlappingSection (name : String) (start stop : Word)
  | initializedBss (name : String)
  | invalidSize (size : DataSize)
  | emptyIdentifier
deriving DecidableEq, Repr

/-- Cause of a failed assembly. -/
inductive AssemblyError
  | expression (place : String) (cause : EvalError)
  | operand (instruction : String) (index : Nat) (cause : EvalError)
  | encoding (place : String) (cause : EncodeError)
  | container (cause : ContainerError)
  | argument (cause : ArgumentError)
  | duplicateSymbol (identifier : String)
  /-- Something wrote another number of bytes than it had been given room for. -/
  | lengthMismatch (address : Word) (expected actual : Nat)
  /-- A pass was asked for out of turn. -/
  | wrongStage (pass : Pass) (stage : Stage)
  /-- The sink did not take all bytes of a write. -/
  | sinkFull
deriving DecidableEq, Repr

/-- The cause in words. -/
def ContainerError.message : ContainerError → String
  | .exportedSymbol identifier =>
    "public symbol `" ++ identifier ++ "` is not supported by the target format"
  | .importedSymbol identifier =>
    "extern symbol `" ++ identifier ++ "` is not supported by the target format"
  | .undefinedSymbol identifier =>
    "undefined symbol `" ++ identifier
      ++ "` needs a relocation the target format cannot express"
  | .fixedStart name =>
    "section `" ++ name ++ "` has an explicit start address the target format cannot express"

/-- The cause in words. -/
def ArgumentError.message : ArgumentError → String
  | .notPowerOfTwo boundary =>
    "alignment boundary " ++ boundary.toNat.repr ++ " is not a power of two"
  | .overlappingSection name start stop =>
    "section `" ++ name ++ "` starts at " ++ start.hex
      ++ ", below the end of the previous section (" ++ stop.hex ++ ")"
  | .initializedBss name => "section `" ++ name ++ "` may hold only uninitialized data"
  | .invalidSize size => size.text ++ " is not a valid size for this value"
  | .emptyIdentifier => "symbol identifier is empty"

/-- The cause in words. -/
def AssemblyError.message : AssemblyError → String
  | .expression place cause => "`" ++ place ++ "`: " ++ cause.message
  | .operand instruction index cause =>
    "`" ++ instruction ++ "`, operand " ++ index.repr ++ ": " ++ cause.message
  | .encoding place cause => "`" ++ place ++ "`: " ++ cause.message
  | .container cause => cause.message
  | .argument cause => cause.message
  | .duplicateSymbol identifier => "symbol `" ++ identifier ++ "` is already defined"
  | .lengthMismatch address expected actual =>
    "emittable at " ++ address.hex ++ " wrote " ++ actual.repr ++ " bytes but declared "
      ++ expected.repr
  | .wrongStage pass stage => "cannot " ++ pass.name ++ " an object file that is " ++ stage.name
  | .sinkFull => "I/O error: failed to write whole buffer"

end Assembler
