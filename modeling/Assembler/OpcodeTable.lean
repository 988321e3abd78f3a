import Assembler.OpcodeTable.Arithmetic
import Assembler.OpcodeTable.Conditional
import Assembler.OpcodeTable.ControlFlow
import Assembler.OpcodeTable.DataMovement
import Assembler.OpcodeTable.StringMovement
import Assembler.OpcodeTable.System

/-!
# The opcode table

All opcodes, in groups. No mnemonic occurs twice, so the order of the groups is that of a listing.
-/

namespace Assembler

namespace OpcodeTable

/-- The groups of the table. -/
def groups : List (List Opcode) :=
  [dataMovement, arithmetic, controlFlow, conditional, stringMovement, system]

/-- Every opcode. -/
def opcodes : List Opcode := groups.flatten

/-- The opcode of a mnemonic, in any case. -/
def find? (mnemonic : String) : Option Opcode :=
  let lower := mnemonic.toLower
  opcodes.find? fun op => op.mnemonic.toLower == lower

end OpcodeTable

end Assembler
