import Assembler.Expr.Eval
import Assembler.Form.Encode
import Assembler.OpcodeTable
import Assembler.Operand.Printer

/-!
# Instructions

A mnemonic with operands. Selecting a form needs the values of immediates as far as they are known:
literals always, and expressions with an absolute value where a context is at hand.

* `Instruction.select`: the first form of the mnemonic that accepts the operands and exists in the
  mode.
* `Instruction.encode`: the bytes and fields of that form.
-/

namespace Assembler

/-- A mnemonic with operands. -/
structure Instruction where
  mnemonic : String
  operands : List Operand

/-- An instruction whose form is chosen: fixed bytes, and the fields that follow them. -/
structure Encoded where
  /-- The instruction as it is written. -/
  text : String
  bytes : List UInt8
  fields : List Field

/-- Number of bytes of fields one after the other. -/
def Encoded.fieldsLength : List Field → Nat
  | [] => 0
  | f :: fields => f.size.bytes + fieldsLength fields

/-- Number of bytes of the instruction with its fields. -/
def Encoded.length (e : Encoded) : Nat := e.bytes.length + fieldsLength e.fields

namespace Instruction

/-- The operands as they are written. -/
def operandsText (i : Instruction) : String :=
  String.intercalate ", " (i.operands.map Operand.text)

/-- The instruction as it is written, its mnemonic in lower case. -/
def text (i : Instruction) : String :=
  if i.operands.isEmpty then i.mnemonic.toLower else i.mnemonic.toLower ++ " " ++ i.operandsText

/-- The number that an expression is sure to be: a literal, or an absolute value in the context. -/
def knownExpr (ctx : Option Context) (e : Expr) : Option Word :=
  e.literal.or (ctx.bind fun ctx =>
    match e.eval ctx with
    | .ok v => if v.isAbsolute then some v.constant else none
    | .error _ => none)

/-- The value of an operand, if it is an immediate and known. -/
def knownOperand (ctx : Option Context) : Operand → Option Word
  | .immediate imm => knownExpr ctx imm.expr
  | _ => none

/-- What is known of the operands. -/
def knownValues (i : Instruction) (ctx : Option Context) : KnownValues :=
  i.operands.map (knownOperand ctx)

/-- The first form that accepts the operands and exists in the mode. -/
def select (i : Instruction) (mode : Mode) (known : KnownValues) : Except EncodeError Form :=
  match OpcodeTable.find? i.mnemonic with
  | none => .error (.unknownMnemonic i.mnemonic)
  | some opcode =>
    let accepting := opcode.forms.filter fun f => f.accepts i.operands known mode
    match accepting.find? fun f => f.isValidIn i.operands mode with
    | some f => .ok f
    | none =>
      if accepting.isEmpty then .error (.noMatchingForm i.mnemonic i.operandsText)
      else .error (.unsupportedInMode i.mnemonic mode)

/-- The bytes and fields of the instruction. -/
def encode (i : Instruction) (mode : Mode) (known : KnownValues) : Except EncodeError Encoded := do
  let form ← i.select mode known
  let (bytes, fields) ← form.encode i.mnemonic i.operands mode
  .ok ⟨i.text, bytes, fields⟩

end Instruction

end Assembler
