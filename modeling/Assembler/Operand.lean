import Assembler.EncodeError
import Assembler.Expr

/-!
# Operands

What stands behind a mnemonic: registers, immediates, memory operands, direct memory offsets and
branch targets. A width that is left open is chosen together with the encoding.
-/

namespace Assembler

/-- A number in the instruction. -/
structure Immediate where
  expr : Expr
  /-- Width, where the operand states one. -/
  size : Option DataSize

/-- A memory operand `[segment: base + index*scale + displacement]`. -/
structure Address where
  /-- Width of what is addressed. -/
  size : DataSize
  /-- Width of the address, where the operand states one. -/
  addressSize : Option DataSize
  segment : Option Register
  base : Option Register
  index : Option Register
  scale : UInt8
  displacement : Option Expr
  /-- Whether the displacement counts from the next instruction. -/
  ripRelative : Bool

/-- A memory operand that is an address in the instruction, without ModRM. -/
structure DirectOffset where
  size : DataSize
  address : Expr
  segment : Option Register
  addressSize : Option DataSize

/-- A place to continue at, encoded as its distance from the end of the instruction. -/
structure BranchTarget where
  target : Expr
  /-- Width of the distance, where the operand states one. -/
  size : Option DataSize

/-- An operand of an instruction. -/
inductive Operand
  | register (r : Register)
  | immediate (imm : Immediate)
  | memory (address : Address)
  | offset (offset : DirectOffset)
  | branch (branch : BranchTarget)

namespace Address

/-- A memory operand of the given width that addresses nothing yet. -/
def new (size : DataSize) : Address where
  size := size
  addressSize := none
  segment := none
  base := none
  index := none
  scale := 1
  displacement := none
  ripRelative := false

/-- The registers that the address is formed from. -/
def registers (a : Address) : List Register := a.base.toList ++ a.index.toList

/-- Whether a register of the address needs a bit of a REX prefix. -/
def usesExtended (a : Address) : Bool := a.registers.any Register.isExtended

/-- Whether a register can be part of an address. -/
def canAddress (r : Register) : Bool := r.isGeneral && r.size ≠ .bit8

/-- The width that the registers of an address have in common, if there are any. -/
def impliedSize : List Register → Except EncodeError (Option DataSize)
  | [] => .ok none
  | r :: rest =>
    if !canAddress r then .error (.invalidAddress (.cannotAddress r))
    else match rest with
      | [] => .ok (some r.size)
      | other :: _ =>
        if !canAddress other then .error (.invalidAddress (.cannotAddress other))
        else if r.size ≠ other.size then .error (.invalidAddress .widthsDiffer)
        else .ok (some r.size)

/-- Width of the address: the stated one, that of its registers, or the mode's. -/
def effectiveSize (a : Address) (mode : Mode) : Except EncodeError DataSize :=
  if a.ripRelative then .ok (a.addressSize.getD .bit64)
  else do
    match a.addressSize, ← impliedSize a.registers with
    | some explicit, some implied =>
      if explicit ≠ implied then .error (.invalidAddress (.sizeConflict implied explicit))
      else .ok explicit
    | some explicit, none => .ok explicit
    | none, some implied => .ok implied
    | none, none => .ok mode.addressSize

end Address

/-- Width of the address: the stated one or the mode's. -/
def DirectOffset.effectiveSize (m : DirectOffset) (mode : Mode) : DataSize :=
  m.addressSize.getD mode.addressSize

/-- Width that an operand asks for, if it fixes one. -/
def Operand.size? : Operand → Option DataSize
  | .register r => some r.size
  | .immediate imm => imm.size
  | .memory a => if a.size = .unsized then none else some a.size
  | .offset m => some m.size
  | .branch b => b.size

namespace Operand

/-- An immediate of any width. -/
def imm (e : Expr) : Operand := .immediate ⟨e, none⟩

/-- A branch target at any distance. -/
def near (target : Expr) : Operand := .branch ⟨target, none⟩

/-- A branch target at a distance of one byte. -/
def short (target : Expr) : Operand := .branch ⟨target, some .bit8⟩

/-- A direct offset in the default segment. -/
def direct (size : DataSize) (address : Expr) : Operand := .offset ⟨size, address, none, none⟩

end Operand

end Assembler
