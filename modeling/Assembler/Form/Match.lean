import Assembler.Form
import Assembler.Operand

/-!
# Which forms accept which operands

`Form.accepts` compares the shape of a form with the operands: their number, kinds and widths. An
immediate without a width is judged by its value where that is known. `Form.isValidIn` then says
whether the form exists in a mode with these operands.
-/

namespace Assembler

/-- Operands with the value of each immediate that is known. -/
abbrev KnownValues := List (Option Word)

/-- What is known at a position. Nothing is known past the end of the list. -/
def KnownValues.valueAt (known : KnownValues) (i : Nat) : Option Word := known[i]?.join

namespace Form

/-- The operands of a form, each with its slot, as far as both go. -/
def pair (f : Form) (operands : List Operand) : List (Slot × Operand) := f.slots.zip operands

/-- Whether a register slot of the form has this width. -/
def hasRegisterOf (f : Form) (size : DataSize) : Bool :=
  f.slots.any fun slot =>
    match slot.shape with
    | .register _ s => s = size
    | _ => false

/-- Whether an immediate states this width and its slot has it. -/
def hasImmediateOf (f : Form) (operands : List Operand) (size : DataSize) : Bool :=
  (f.pair operands).any fun (slot, op) =>
    match slot.shape, op with
    | .immediate s, .immediate imm => s = size && imm.size = some size
    | _, _ => false

/-- Whether a memory operand can have the width of its slot. One without a width borrows it from a
register of the form, or from an immediate that states it. -/
def acceptsMemory (f : Form) (size : DataSize) (a : Address) (operands : List Operand) : Bool :=
  size = .unsized || a.size = size
    || (a.size = .unsized && (f.hasRegisterOf size || f.hasImmediateOf operands size))

/-- Whether an immediate can have the width of its slot: the width that it states, or one that holds
its value. An unknown value goes to any slot but a sign-extended byte. -/
def acceptsImmediate (f : Form) (size : DataSize) (imm : Immediate) (known : Option Word) : Bool :=
  match imm.size, known with
  | some explicit, _ => explicit = size
  | none, some v =>
    if f.signExtends then v.fitsExtended size f.operandSize else v.fitsEither size
  | none, none => !f.needsKnown && !(f.signExtends && size = .bit8)

/-- Whether an operand has the shape of its slot. -/
def acceptsOperand (f : Form) (shape : Shape) (op : Operand) (known : Option Word)
    (operands : List Operand) : Bool :=
  match shape, op with
  | .fixed want, .register r => want = r
  | .register cls size, .register r => r.cls = cls && r.size = size
  | .registerOrMemory cls size, .register r => r.cls = cls && r.size = size
  | .registerOrMemory _ size, .memory a => f.acceptsMemory size a operands
  | .memory size, .memory a => f.acceptsMemory size a operands
  | .immediate size, .immediate imm => f.acceptsImmediate size imm known
  | .offset size, .offset m => m.size = size
  | .branch size, .branch b => b.size = none || b.size = some size
  | _, _ => false

/-- Whether an operand leaves its width open. -/
def leavesSizeOpen : Operand → Bool
  | .immediate imm => imm.size.isNone
  | .branch b => b.size.isNone
  | _ => false

/-- Where nothing else settles the operand size, an operand without a width takes the default. -/
def honoursDefaultSize (f : Form) (operands : List Operand) (mode : Mode) : Bool :=
  f.operandSize = .unsized || f.slots.any (·.shape.fixesSize)
    || !operands.any leavesSizeOpen || f.operandSize = f.defaultSize mode

/-- Whether the form has the shape of these operands. -/
def accepts (f : Form) (operands : List Operand) (known : KnownValues) (mode : Mode) : Bool :=
  f.slots.length = operands.length
    && (f.pair operands).zipIdx.all (fun ((slot, op), i) =>
      f.acceptsOperand slot.shape op (known.valueAt i) operands)
    && f.honoursDefaultSize operands mode

/-! ## Modes -/

/-- Whether an address has this size. An address without a size has none. -/
def hasSize (a : Address) (mode : Mode) (size : DataSize) : Bool :=
  match a.effectiveSize mode with
  | .ok s => s = size
  | .error _ => false

/-- Whether an operand exists in 64-bit mode, which has no 16-bit addresses. -/
def isLongOperand : Operand → Bool
  | .memory a => !hasSize a .bit64 .bit16
  | .offset m => m.effectiveSize .bit64 ≠ .bit16
  | _ => true

/-- Whether an operand exists in a mode without REX and 64-bit addresses. -/
def isLegacyOperand (mode : Mode) : Operand → Bool
  | .register r => !r.requiresRex && !(r.isGeneral && r.size = .bit64)
  | .memory a => !a.ripRelative && !a.usesExtended && !hasSize a mode .bit64
  | .offset m => m.effectiveSize mode ≠ .bit64
  | _ => true

/-- Whether an operand is the register `eax`. -/
def isEax : Operand → Bool
  | .register r => r = .eax
  | _ => false

/-- Whether the form would be opcode 90 with `eax` in every place. In 64-bit mode that leaves the
upper half of `rax` as it is. -/
def isNopOfEax (f : Form) (operands : List Operand) : Bool :=
  f.opcode = [0x90] && operands.all isEax

/-- Whether a form that accepts these operands can be encoded in the mode. -/
def isValidIn (f : Form) (operands : List Operand) (mode : Mode) : Bool :=
  f.modes.contains mode &&
    match mode with
    | .bit64 => !f.isNopOfEax operands && operands.all isLongOperand
    | mode => f.operandSize ≠ .bit64 && operands.all (isLegacyOperand mode)

end Form

end Assembler
