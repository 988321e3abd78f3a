import Assembler.Json
import Assembler.Program

/-!
# Names in stored programs

How the cases of the plain choices are called in a stored program. Each list of names serves both
directions.
-/

namespace Assembler

/-- The name of a case. -/
def nameIn {α : Type} [DecidableEq α] (cases : List (String × α)) (a : α) : String :=
  ((cases.find? fun c => c.2 = a).map Prod.fst).getD ""

/-- The case as it is stored. -/
def nameJson {α : Type} [DecidableEq α] (cases : List (String × α)) (a : α) : Json :=
  .string (nameIn cases a)

/-- Names of the data sizes. -/
def DataSize.names : List (String × DataSize) :=
  [("None", .unsized), ("Bit8", .bit8), ("Bit16", .bit16), ("Bit32", .bit32), ("Bit64", .bit64),
    ("Bit80", .bit80), ("Bit128", .bit128)]

/-- Names of the modes. -/
def Mode.names : List (String × Mode) :=
  [("Bit16", .bit16), ("Bit32", .bit32), ("Bit64", .bit64)]

/-- Names of the visibilities of a symbol. -/
def SymbolKind.names : List (String × SymbolKind) :=
  [("None", .plain), ("Private", .internal), ("Public", .exported), ("Weak", .weak),
    ("Extern", .imported)]

/-- Names of the kinds of section. -/
def SectionKind.names : List (String × SectionKind) :=
  [("Text", .text), ("Data", .data), ("Bss", .bss)]

/-- Names of the kinds of relocation. -/
def RelocationKind.names : List (String × RelocationKind) :=
  [("Absolute", .absolute), ("PcRelative", .pcRelative)]

/-- Names of the kinds of field. -/
def FieldKind.names : List (String × FieldKind) :=
  [("Absolute", .absolute), ("Relative", .relative)]

/-- Names of the operators on one value. -/
def UnaryOp.names : List (String × UnaryOp) :=
  [("Negate", .negate), ("Positivate", .identity), ("Increment", .increment),
    ("Decrement", .decrement), ("Complement", .complement), ("LogicalNot", .logicalNot)]

/-- Names of the operators on two values. -/
def BinaryOp.names : List (String × BinaryOp) :=
  [("Or", .or), ("Xor", .xor), ("And", .and), ("Shl", .shl), ("Shr", .shr), ("Add", .add),
    ("Sub", .sub), ("Mul", .mul), ("DivU", .divU), ("DivS", .divS), ("ModU", .modU),
    ("ModS", .modS)]

/-- Names of the registers, in upper case. -/
def Register.names : List (String × Register) := Register.all.map fun r => (r.name, r)

end Assembler
