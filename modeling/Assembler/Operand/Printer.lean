import Assembler.Expr.Printer
import Assembler.Operand

/-!
# Printed operands
-/

namespace Assembler

/-- The keyword of a size in front of an operand, and nothing for the unsized width. -/
def sizeKeyword (size : DataSize) : String :=
  if size = .unsized then "" else size.keyword ++ " "

/-- A segment in front of an address. -/
def segmentText : Option Register → String
  | some r => r.text ++ ":"
  | none => ""

/-- The immediate as it is written. -/
def Immediate.text (imm : Immediate) : String :=
  sizeKeyword (imm.size.getD .unsized) ++ imm.expr.text

/-- The branch target as it is written. Any stated width is followed by a space. -/
def BranchTarget.text (b : BranchTarget) : String :=
  match b.size with
  | some .bit8 => "short " ++ b.target.text
  | some size => size.keyword ++ " " ++ b.target.text
  | none => b.target.text

/-- The direct offset as it is written. -/
def DirectOffset.text (m : DirectOffset) : String :=
  sizeKeyword m.size ++ "[" ++ segmentText m.segment ++ m.address.text ++ "]"

namespace Address

/-- The index register with its scale. -/
def indexText (index : Register) (scale : UInt8) : String :=
  if scale = 1 then index.text else index.text ++ "*" ++ scale.toNat.repr

/-- The registers of an address, joined. -/
def registersText (a : Address) : String :=
  String.intercalate "+"
    (a.base.toList.map Register.text ++ a.index.toList.map (indexText · a.scale))

/-- A displacement after registers. A known negative one is subtracted. -/
def displacementText (d : Expr) : String :=
  match d.literal with
  | some v => if v.isNegative then "-" ++ (-v).hex else "+" ++ d.text
  | none => "+" ++ d.text

/-- What stands in the brackets after segment and mark. -/
def sumText (a : Address) : String :=
  if a.registers.isEmpty then
    match a.displacement with
    | some d => d.text
    | none => "0"
  else
    match a.displacement with
    | some d => a.registersText ++ displacementText d
    | none => a.registersText

/-- The memory operand as it is written. -/
def text (a : Address) : String :=
  sizeKeyword a.size ++ "[" ++ segmentText a.segment ++ (if a.ripRelative then "rel " else "")
    ++ a.sumText ++ "]"

end Address

/-- The operand as it is written. -/
def Operand.text : Operand → String
  | .register r => r.text
  | .immediate imm => imm.text
  | .memory a => a.text
  | .offset m => m.text
  | .branch b => b.text

end Assembler
