import Assembler.Address.Encode
import Assembler.Form.Match

/-!
# Encoded forms

`Form.encode` lays a form and its operands out in bytes: overrides of segment, operand size and
address size, a REX prefix, the opcode, ModRM with its address bytes, and fields for everything
whose value is an expression. Displacements come first among the fields, then the other operands in
order.

Encoding does not ask whether the form accepts the operands. Slots and operands are paired as far as
both go.
-/

namespace Assembler

/-- What the registers and memory operands of an instruction make of its opcode and ModRM. -/
structure Assignment where
  opcode : List UInt8
  reg : Option (BitVec 3)
  rm : Option Operand
  rex : Rex
  /-- Whether a byte register asks for a REX prefix, even an empty one. -/
  needsRex : Bool

/-- The opcode with a register number added to its last byte. -/
def addToLast (opcode : List UInt8) (low : BitVec 3) : List UInt8 :=
  match opcode.getLast? with
  | some last => opcode.dropLast ++ [last + ⟨low.setWidth 8⟩]
  | none => []

namespace Assignment

/-- Whether an operand is a byte register that only a REX prefix selects. -/
def isRexByte : Operand → Bool
  | .register r => r.requiresRex && r.size = .bit8
  | _ => false

/-- Puts one operand in its place. A later operand replaces an earlier one in the same place. -/
def place (a : Assignment) (slot : Slot) (op : Operand) : Assignment :=
  let a := { a with needsRex := a.needsRex || isRexByte op }
  match slot.placement, op with
  | .opcode, .register r =>
    { a with
      opcode := addToLast a.opcode r.low
      rex := a.rex.union { Rex.empty with b := r.isExtended } }
  | .reg, .register r =>
    { a with reg := some r.low, rex := a.rex.union { Rex.empty with r := r.isExtended } }
  | .standard, .register r => { a with rm := some (.register r) }
  | .standard, .memory m => { a with rm := some (.memory m) }
  | _, _ => a

end Assignment

namespace Operand

/-- The memory operand, if it is one. -/
def memory? : Operand → Option Address
  | .memory a => some a
  | _ => none

/-- The direct offset, if it is one. -/
def offset? : Operand → Option DirectOffset
  | .offset m => some m
  | _ => none

/-- The register, if it is one that a REX prefix puts out of reach. -/
def highByte? : Operand → Option Register
  | .register r => if r.isHighByte then some r else none
  | _ => none

end Operand

namespace Form

/-- The segment that an instruction states. -/
def segment? (operands : List Operand) : Option Register :=
  ((operands.findSome? Operand.memory?).bind Address.segment).or
    ((operands.findSome? Operand.offset?).bind DirectOffset.segment)

/-- The segment override. -/
def segmentBytes (operands : List Operand) : Except EncodeError (List UInt8) :=
  match segment? operands with
  | none => .ok []
  | some r =>
    match r.segmentOverride? with
    | some byte => .ok [byte]
    | none => .error (.invalidAddress (.notSegment r))

/-- The operand size override. -/
def sizeBytes (f : Form) (mode : Mode) : List UInt8 :=
  match f.operandSize, mode with
  | .bit16, .bit32 => [0x66]
  | .bit16, .bit64 => [0x66]
  | .bit32, .bit16 => [0x66]
  | _, _ => []

/-- REX.W, for an operation of 64 bits that is not that wide by default. -/
def wideRex (f : Form) : Rex := { Rex.empty with w := f.operandSize = .bit64 && !f.default64 }

/-- Size of the address of the memory operand or direct offset, if there is one. -/
def addressSize? (operands : List Operand) (mode : Mode) : Except EncodeError (Option DataSize) :=
  match operands.findSome? Operand.memory?, operands.findSome? Operand.offset? with
  | some a, _ => (a.effectiveSize mode).map some
  | none, some m => .ok (some (m.effectiveSize mode))
  | none, none => .ok none

/-- The address size override. -/
def addressBytes (mode : Mode) : Option DataSize → Except EncodeError (List UInt8)
  | none => .ok []
  | some size =>
    match mode, size with
    | .bit16, .bit16 => .ok []
    | .bit32, .bit32 => .ok []
    | .bit64, .bit64 => .ok []
    | .bit16, .bit32 => .ok [0x67]
    | .bit32, .bit16 => .ok [0x67]
    | .bit64, .bit32 => .ok [0x67]
    | mode, size => .error (.invalidAddress (.sizeInMode size mode))

/-- Puts every operand in its place. -/
def assign (f : Form) (operands : List Operand) : Assignment :=
  (f.pair operands).foldl (fun a (slot, op) => a.place slot op)
    ⟨f.opcode, f.digit, none, f.wideRex, false⟩

/-- ModRM with what belongs to it. A form that uses neither part of it has none. -/
def operandBytes (a : Assignment) (addressSize : DataSize) (mode : Mode) :
    Except EncodeError EncodedAddress :=
  let reg := a.reg.getD 0
  match a.rm with
  | some (.register r) =>
    .ok ⟨[ModRM.byte ⟨0b11, reg, r.low⟩], none, { Rex.empty with b := r.isExtended }⟩
  | some (.memory m) => m.encode addressSize reg mode
  | _ => .ok ⟨if a.reg.isSome then [ModRM.byte ⟨0b11, reg, 0⟩] else [], none, .empty⟩

/-- The REX prefix, if the instruction needs one. Only 64-bit mode has it, and no instruction that
has it reaches a high byte register. -/
def rexBytes (mnemonic : String) (operands : List Operand) (mode : Mode) (rex : Rex)
    (needed : Bool) : Except EncodeError (List UInt8) :=
  if rex = .empty && !needed then .ok []
  else if mode ≠ .bit64 then .error (.unsupportedInMode mnemonic mode)
  else match operands.findSome? Operand.highByte? with
    | some r => .error (.highByteWithRex r)
    | none => .ok [rex.byte]

/-- The field that an operand leaves behind the other bytes. -/
def operandField? (f : Form) (addressSize : DataSize) (slot : Slot) : Operand → Option Field
  | .immediate imm =>
    let field := Field.absolute imm.expr slot.shape.size
    some (if f.signExtends then field.signExtended f.operandSize else field)
  | .offset m => some (.absolute m.address addressSize)
  | .branch b => some (.relative b.target slot.shape.size)
  | _ => none

/-- The fields of the operands, in order. -/
def operandFields (f : Form) (operands : List Operand) (addressSize : DataSize) : List Field :=
  (f.pair operands).zipIdx.filterMap fun ((slot, op), i) =>
    (f.operandField? addressSize slot op).map (·.ofOperand i)

/-- The fixed bytes of an instruction and the fields that follow them. -/
def encode (f : Form) (mnemonic : String) (operands : List Operand) (mode : Mode) :
    Except EncodeError (List UInt8 × List Field) := do
  let segment ← segmentBytes operands
  let addressSize? ← addressSize? operands mode
  let address ← addressBytes mode addressSize?
  let addressSize := addressSize?.getD mode.addressSize
  let assigned := f.assign operands
  let tail ← operandBytes assigned addressSize mode
  let rex ← rexBytes mnemonic operands mode (assigned.rex.union tail.rex) assigned.needsRex
  let bytes := segment ++ f.sizeBytes mode ++ address ++ rex ++ assigned.opcode ++ tail.bytes
  .ok (bytes, tail.displacement.toList ++ f.operandFields operands addressSize)

end Form

end Assembler
