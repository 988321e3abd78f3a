import Assembler.Mode
import Assembler.Register
import Assembler.Word.Text

/-!
# Why an instruction has no encoding
-/

namespace Assembler

/-- What is wrong with a memory operand. -/
inductive AddressFault
  | notSegment (r : Register)
  | cannotAddress (r : Register)
  | widthsDiffer
  | sizeConflict (implied explicit : DataSize)
  | sizeInMode (size : DataSize) (mode : Mode)
  | ripWithRegisters
  | badScale (scale : UInt8)
  | notIndex (r : Register)
  | scaled16
  | badPair16
deriving DecidableEq, Repr

/-- Cause of a failed encoding. -/
inductive EncodeError
  | unknownMnemonic (mnemonic : String)
  | noMatchingForm (mnemonic operands : String)
  | unsupportedInMode (mnemonic : String) (mode : Mode)
  | outOfRange (value : Word) (size : DataSize)
  | invalidAddress (fault : AddressFault)
  | highByteWithRex (r : Register)
deriving DecidableEq, Repr

/-- The fault in words. -/
def AddressFault.message : AddressFault → String
  | .notSegment r => "`" ++ r.name ++ "` is not a segment register"
  | .cannotAddress r => "`" ++ r.name ++ "` cannot address memory"
  | .widthsDiffer => "base and index registers differ in width"
  | .sizeConflict implied explicit =>
    implied.text ++ " registers in a " ++ explicit.text ++ " address"
  | .sizeInMode size mode => size.text ++ " addressing in " ++ mode.text ++ " mode"
  | .ripWithRegisters => "RIP-relative address cannot use base or index"
  | .badScale scale => "scale " ++ scale.toNat.repr ++ " is not one of 1, 2, 4, 8"
  | .notIndex r => "`" ++ r.text ++ "` cannot be an index register"
  | .scaled16 => "16-bit addressing cannot scale an index"
  | .badPair16 => "only BX/BP with SI/DI can form a 16-bit address"

/-- The cause in words. -/
def EncodeError.message : EncodeError → String
  | .unknownMnemonic mnemonic => "unknown mnemonic `" ++ mnemonic ++ "`"
  | .noMatchingForm mnemonic operands =>
    "no variant of `" ++ mnemonic ++ "` accepts operands (" ++ operands ++ ")"
  | .unsupportedInMode mnemonic mode =>
    "`" ++ mnemonic ++ "` with these operands is not encodable in " ++ mode.text ++ " mode"
  | .outOfRange value size =>
    "value " ++ value.hex ++ " does not fit in a " ++ size.text ++ " field"
  | .invalidAddress fault => "invalid effective address: " ++ fault.message
  | .highByteWithRex r =>
    "register `" ++ r.text ++ "` cannot be encoded together with a REX prefix"

end Assembler
