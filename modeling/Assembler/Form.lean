import Assembler.MachineByte
import Assembler.Mode

/-!
# Instruction forms

A form is one machine encoding of a mnemonic: an opcode, the shape of each operand it takes, and
where in the instruction each operand goes. The opcode table is a list of forms; matching, validity
and encoding are functions of a form and its operands.

The last part holds the words that the table is written in.
-/

namespace Assembler

/-- The operands that a form accepts at one position. -/
inductive Shape
  | fixed (r : Register)
  | register (cls : RegisterClass) (size : DataSize)
  | registerOrMemory (cls : RegisterClass) (size : DataSize)
  | memory (size : DataSize)
  | immediate (size : DataSize)
  | offset (size : DataSize)
  | branch (size : DataSize)
deriving DecidableEq, Repr

/-- Where an operand goes. -/
inductive Placement
  /-- ModRM.rm for a register or memory, trailing bytes for everything else. -/
  | standard
  /-- Added to the last byte of the opcode. -/
  | opcode
  /-- ModRM.reg. -/
  | reg
  /-- Nowhere: the opcode implies it. -/
  | implied
deriving DecidableEq, Repr

/-- One operand of a form. -/
structure Slot where
  shape : Shape
  placement : Placement
deriving DecidableEq, Repr

/-- One encoding of a mnemonic. -/
structure Form where
  opcode : List UInt8
  slots : List Slot
  /-- Extension of the opcode in ModRM.reg. -/
  digit : Option (BitVec 3)
  /-- Width of the operation, unsized if the encoding does not depend on it. -/
  operandSize : DataSize
  /-- Whether the operation is 64 bits wide in 64-bit mode without REX.W. -/
  default64 : Bool
  /-- Whether the processor sign-extends the immediate to the operand size. -/
  signExtends : Bool
  /-- Whether an immediate has to be known when the form is chosen. -/
  needsKnown : Bool
  modes : ModeSet
deriving DecidableEq, Repr

namespace Shape

/-- Width of the operand. -/
def size : Shape → DataSize
  | .fixed r => r.size
  | .register _ s => s
  | .registerOrMemory _ s => s
  | .memory s => s
  | .immediate s => s
  | .offset s => s
  | .branch s => s

/-- Whether an operand of this shape settles the operand size by itself. -/
def fixesSize : Shape → Bool
  | .immediate _ => false
  | .branch _ => false
  | _ => true

end Shape

namespace Form

/-- Operand width that nothing in the instruction has to ask for. -/
def defaultSize (f : Form) (mode : Mode) : DataSize :=
  if f.default64 && mode = .bit64 then .bit64 else mode.operandSize

/-! ## Words of the opcode table -/

/-- A form of every mode whose encoding does not depend on the operand size. -/
def of (opcode : List UInt8) (slots : List Slot) : Form where
  opcode := opcode
  slots := slots
  digit := none
  operandSize := .unsized
  default64 := false
  signExtends := false
  needsKnown := false
  modes := .all

/-- The form with an opcode extension. -/
def slash (f : Form) (digit : BitVec 3) : Form := { f with digit := some digit }

/-- The form as one of an operation of 8 bits. -/
def op8 (f : Form) : Form := { f with operandSize := .bit8 }

/-- The form as one of an operation of 16 bits. -/
def op16 (f : Form) : Form := { f with operandSize := .bit16 }

/-- The form as one of an operation of 32 bits. -/
def op32 (f : Form) : Form := { f with operandSize := .bit32 }

/-- The form as one of an operation of 64 bits. -/
def op64 (f : Form) : Form := { f with operandSize := .bit64 }

/-- The form as one whose immediate is sign-extended. -/
def sext (f : Form) : Form := { f with signExtends := true }

/-- The form as one that is for known immediates only. -/
def known (f : Form) : Form := { f with needsKnown := true }

/-- The form as one that is 64 bits wide without REX.W. -/
def wide (f : Form) : Form := { f with default64 := true }

/-- The form in 64-bit mode only. -/
def long (f : Form) : Form := { f with modes := Mode.bit64.only }

/-- The form in 32-bit mode only. -/
def only32 (f : Form) : Form := { f with modes := Mode.bit32.only }

/-- The form in 16-bit mode only. -/
def only16 (f : Form) : Form := { f with modes := Mode.bit16.only }

/-- The form in 16- and 32-bit mode only. -/
def legacy (f : Form) : Form := { f with modes := .legacy }

end Form

namespace Slot

/-- Exactly this register. -/
def fixed (r : Register) : Slot := ⟨.fixed r, .implied⟩

/-- A general-purpose register in ModRM.reg. -/
def reg (size : DataSize) : Slot := ⟨.register .general size, .reg⟩

/-- A general-purpose register in ModRM.rm, with no memory operand instead. -/
def regRm (size : DataSize) : Slot := ⟨.register .general size, .standard⟩

/-- A control or debug register in ModRM.reg. -/
def special (cls : RegisterClass) : Slot := ⟨.register cls .unsized, .reg⟩

/-- A segment register in ModRM.reg. -/
def sreg : Slot := ⟨.register .segment .bit16, .reg⟩

/-- A general-purpose register in the opcode. -/
def opreg (size : DataSize) : Slot := ⟨.register .general size, .opcode⟩

/-- A general-purpose register or memory in ModRM.rm. -/
def rm (size : DataSize) : Slot := ⟨.registerOrMemory .general size, .standard⟩

/-- Memory of any width in ModRM.rm. -/
def mem : Slot := ⟨.memory .unsized, .standard⟩

/-- An immediate after the instruction's other bytes. -/
def imm (size : DataSize) : Slot := ⟨.immediate size, .standard⟩

/-- A direct offset after the opcode. -/
def moffs (size : DataSize) : Slot := ⟨.offset size, .standard⟩

/-- A distance to a branch target. -/
def rel (size : DataSize) : Slot := ⟨.branch size, .standard⟩

end Slot

end Assembler
