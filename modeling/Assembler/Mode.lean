import Assembler.DataSize

/-!
# Processor modes

The mode that code is assembled for fixes the operand and address sizes that need no override, and
decides which encodings exist at all.
-/

namespace Assembler

/-- Processor mode. -/
inductive Mode
  | bit16
  | bit32
  | bit64
deriving DecidableEq, Repr

/-- A set of processor modes. -/
structure ModeSet where
  bit16 : Bool
  bit32 : Bool
  bit64 : Bool
deriving DecidableEq, Repr

namespace Mode

instance : Inhabited Mode := ⟨.bit32⟩

/-- Operand size that needs no override. It is 32 bits in 64-bit mode, too. -/
def operandSize : Mode → DataSize
  | .bit16 => .bit16
  | .bit32 => .bit32
  | .bit64 => .bit32

/-- Address size that needs no override. -/
def addressSize : Mode → DataSize
  | .bit16 => .bit16
  | .bit32 => .bit32
  | .bit64 => .bit64

/-- The mode of the given number of bits. -/
def ofBits? : Nat → Option Mode
  | 16 => some .bit16
  | 32 => some .bit32
  | 64 => some .bit64
  | _ => none

/-- The mode as it reads in a message. -/
def text (mode : Mode) : String := mode.addressSize.bits.repr ++ "-bit"

/-- The set that holds this mode only. -/
def only (mode : Mode) : ModeSet := ⟨mode = .bit16, mode = .bit32, mode = .bit64⟩

end Mode

namespace ModeSet

/-- Whether a mode is in the set. -/
def contains (modes : ModeSet) : Mode → Bool
  | .bit16 => modes.bit16
  | .bit32 => modes.bit32
  | .bit64 => modes.bit64

/-- The set as a number, one bit a mode from the narrowest up. -/
def bits (modes : ModeSet) : Nat :=
  modes.bit16.toNat + 2 * modes.bit32.toNat + 4 * modes.bit64.toNat

/-- Every mode. -/
def all : ModeSet := ⟨true, true, true⟩

/-- The modes without REX. -/
def legacy : ModeSet := ⟨true, true, false⟩

@[simp]
theorem contains_only (mode other : Mode) : mode.only.contains other = decide (other = mode) := by
  cases mode <;> cases other <;> rfl

end ModeSet

end Assembler
