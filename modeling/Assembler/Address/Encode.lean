import Assembler.Field
import Assembler.MachineByte
import Assembler.Operand

/-!
# Encoded addresses

The bytes of a memory operand: ModRM, in 32- and 64-bit addressing perhaps SIB, and a displacement
field. Which register numbers need a bit of a REX prefix comes with them.

Some combinations of bits mean something else than the register that they would name, and decide the
shape of the bytes: `rm` 100 announces SIB, index 100 stands for no index, and base 101 without a
displacement stands for no base.
-/

namespace Assembler

/-- A memory operand in bytes. -/
structure EncodedAddress where
  bytes : List UInt8
  displacement : Option Field
  rex : Rex

namespace Address

/-- A one-byte displacement, sign-extended to the address. -/
def shortDisplacement (d : Expr) (addressSize : DataSize) : Field :=
  (Field.absolute d .bit8).signExtended addressSize

/-- A displacement of `full` bytes. In 64-bit addressing it is sign-extended. -/
def fullDisplacement (d : Expr) (full addressSize : DataSize) : Field :=
  let field := Field.absolute d full
  if addressSize = .bit64 then field.signExtended .bit64 else field

/-- ModRM.mod and the displacement field of an address with a base. A known zero is left out and a
known small number takes one byte, but a base that `needed` says has no form without a displacement
gets one byte at least. -/
def displacementForm (d : Option Expr) (needed : Bool) (full addressSize : DataSize) :
    BitVec 2 × Option Field :=
  match d with
  | none =>
    if needed then (0b01, some (shortDisplacement (.constant 0) addressSize)) else (0b00, none)
  | some d =>
    match d.literal with
    | some v =>
      if v = 0 && !needed then (0b00, none)
      else if v.fitsSigned .bit8 then (0b01, some (shortDisplacement d addressSize))
      else (0b10, some (fullDisplacement d full addressSize))
    | none => (0b10, some (fullDisplacement d full addressSize))

/-- The displacement, zero if there is none. -/
def displacementOrZero (a : Address) : Expr := a.displacement.getD (.constant 0)

/-- SIB.scale of a scale factor. -/
def scaleBits? : UInt8 → Option (BitVec 2)
  | 1 => some 0
  | 2 => some 1
  | 4 => some 2
  | 8 => some 3
  | _ => none

/-- ModRM.rm of the register pair of a 16-bit address. -/
def pairBits? : Option Register → Option Register → Option (BitVec 3)
  | some .bx, some .si => some 0b000
  | some .si, some .bx => some 0b000
  | some .bx, some .di => some 0b001
  | some .di, some .bx => some 0b001
  | some .bp, some .si => some 0b010
  | some .si, some .bp => some 0b010
  | some .bp, some .di => some 0b011
  | some .di, some .bp => some 0b011
  | some .si, none => some 0b100
  | none, some .si => some 0b100
  | some .di, none => some 0b101
  | none, some .di => some 0b101
  | some .bp, none => some 0b110
  | none, some .bp => some 0b110
  | some .bx, none => some 0b111
  | none, some .bx => some 0b111
  | _, _ => none

/-- The bytes of a 16-bit address. -/
def encode16 (a : Address) (reg : BitVec 3) : Except EncodeError EncodedAddress :=
  if a.index.isSome && a.scale ≠ 1 then .error (.invalidAddress .scaled16)
  else if a.base.isNone && a.index.isNone then
    .ok ⟨[ModRM.byte ⟨0b00, reg, 0b110⟩], some (.absolute a.displacementOrZero .bit16), .empty⟩
  else match pairBits? a.base a.index with
    | none => .error (.invalidAddress .badPair16)
    | some rm =>
      let (mod, field) := displacementForm a.displacement (rm = 0b110) .bit16 .bit16
      .ok ⟨[ModRM.byte ⟨mod, reg, rm⟩], field, .empty⟩

/-- The bytes of a 32- or 64-bit address without a base. In 64-bit mode `rm` 101 counts from the
next instruction, so that an absolute address goes through SIB there. -/
def encodeBaseless (a : Address) (size : DataSize) (reg : BitVec 3) (mode : Mode)
    (scale : BitVec 2) (rex : Rex) : EncodedAddress :=
  let bytes :=
    match a.index with
    | some index => [ModRM.byte ⟨0b00, reg, 0b100⟩, Sib.byte ⟨scale, index.low, 0b101⟩]
    | none =>
      if mode = .bit64 then [ModRM.byte ⟨0b00, reg, 0b100⟩, Sib.byte ⟨0, 0b100, 0b101⟩]
      else [ModRM.byte ⟨0b00, reg, 0b101⟩]
  ⟨bytes, some (fullDisplacement a.displacementOrZero .bit32 size), rex⟩

/-- The bytes of a 32- or 64-bit address with a base. -/
def encodeBased (a : Address) (base : Register) (size : DataSize) (reg : BitVec 3)
    (scale : BitVec 2) (rex : Rex) : EncodedAddress :=
  let (mod, field) := displacementForm a.displacement (base.low = 0b101) .bit32 size
  let bytes :=
    match a.index with
    | some index => [ModRM.byte ⟨mod, reg, 0b100⟩, Sib.byte ⟨scale, index.low, base.low⟩]
    | none =>
      if base.low = 0b100 then [ModRM.byte ⟨mod, reg, 0b100⟩, Sib.byte ⟨scale, 0b100, base.low⟩]
      else [ModRM.byte ⟨mod, reg, base.low⟩]
  ⟨bytes, field, { rex with b := base.isExtended }⟩

/-- Checks that a register can be an index: its number is not that of the stack pointer. -/
def checkIndex : Option Register → Except EncodeError Unit
  | none => .ok ()
  | some r => if r.number = 4 then .error (.invalidAddress (.notIndex r)) else .ok ()

/-- The bytes of a memory operand whose address has the given size, with `reg` in ModRM. -/
def encode (a : Address) (size : DataSize) (reg : BitVec 3) (mode : Mode) :
    Except EncodeError EncodedAddress :=
  if size = .bit16 then a.encode16 reg
  else if a.ripRelative then
    if a.base.isSome || a.index.isSome then .error (.invalidAddress .ripWithRegisters)
    else
      .ok ⟨[ModRM.byte ⟨0b00, reg, 0b101⟩], some (.relative a.displacementOrZero .bit32), .empty⟩
  else
    match scaleBits? a.scale with
    | none => .error (.invalidAddress (.badScale a.scale))
    | some scale => do
      checkIndex a.index
      let rex : Rex := { Rex.empty with x := a.index.any Register.isExtended }
      match a.base with
      | none => .ok (a.encodeBaseless size reg mode scale rex)
      | some base => .ok (a.encodeBased base size reg scale rex)

end Address

end Assembler
