import Assembler.Json.Writer
import Assembler.Program.Names

/-!
# Writing stored programs

From the program tree to JSON, with every field present and in a fixed order. What `Reader` makes of
the result is the tree again, as long as it has no function nodes; those are written by name only.
-/

namespace Assembler

open Json

/-- A case of a choice with its payload. -/
def caseJson (name : String) (payload : Json) : Json := .object [(name, payload)]

/-- The data size as it is stored. -/
def DataSize.toJson (size : DataSize) : Json := nameJson DataSize.names size

/-- The mode as it is stored. -/
def Mode.toJson (mode : Mode) : Json := nameJson Mode.names mode

/-- The register as it is stored. -/
def Register.toJson (r : Register) : Json := nameJson Register.names r

/-- The visibility as it is stored. -/
def SymbolKind.toJson (kind : SymbolKind) : Json := nameJson SymbolKind.names kind

/-- The expression as it is stored. -/
def Expr.toJson : Expr → Json
  | .constant v => caseJson "Constant" (ofWord v)
  | .position => .string "CurrentPosition"
  | .sectionStart => .string "CurrentSection"
  | .reference identifier => caseJson "Reference" (.string identifier)
  | .unary op e => caseJson "Unary" (.array [nameJson UnaryOp.names op, e.toJson])
  | .binary op l r =>
    caseJson "Binary" (.array [nameJson BinaryOp.names op, l.toJson, r.toJson])
  | .function name _ => caseJson "Function" (.string name)

/-- The memory operand as it is stored. -/
def Address.toJson (a : Address) : Json :=
  .object [
    ("size", a.size.toJson),
    ("address_size", ofOption DataSize.toJson a.addressSize),
    ("segment", ofOption Register.toJson a.segment),
    ("base", ofOption Register.toJson a.base),
    ("index", ofOption Register.toJson a.index),
    ("scale", ofNat a.scale.toNat),
    ("displacement", ofOption Expr.toJson a.displacement),
    ("rip_relative", .bool a.ripRelative)]

/-- The direct offset as it is stored. -/
def DirectOffset.toJson (m : DirectOffset) : Json :=
  .object [
    ("size", m.size.toJson),
    ("address", m.address.toJson),
    ("segment", ofOption Register.toJson m.segment),
    ("address_size", ofOption DataSize.toJson m.addressSize)]

/-- The operand as it is stored. -/
def Operand.toJson : Operand → Json
  | .register r => caseJson "Register" r.toJson
  | .immediate imm =>
    caseJson "Immediate"
      (.object [("expr", imm.expr.toJson), ("size", ofOption DataSize.toJson imm.size)])
  | .memory a => caseJson "Memory" a.toJson
  | .offset m => caseJson "MemoryOffset" m.toJson
  | .branch b =>
    caseJson "RelativeOffset"
      (.object [("target", b.target.toJson), ("size", ofOption DataSize.toJson b.size)])

/-- The instruction as it is stored. -/
def Instruction.toJson (i : Instruction) : Json :=
  .object [
    ("mnemonic", .string i.mnemonic),
    ("operands", .array (i.operands.map Operand.toJson))]

/-- The data declaration as it is stored. -/
def DataDeclaration.toJson : DataDeclaration → Json
  | .bytes content => caseJson "Bytes" (.array (content.map fun b => ofNat b.toNat))
  | .values size exprs =>
    caseJson "Values"
      (.object [("size", size.toJson), ("values", .array (exprs.map Expr.toJson))])
  | .reserve size count =>
    caseJson "Reserve" (.object [("size", size.toJson), ("count", ofNat count.toNat)])

namespace Statement

mutual

/-- The statement as it is stored. -/
def toJson : Statement → Json
  | .label identifier kind =>
    caseJson "Label"
      (.object [("identifier", .string identifier), ("symbol_type", kind.toJson)])
  | .define identifier expr kind =>
    caseJson "Define"
      (.object [("identifier", .string identifier), ("expr", expr.toJson),
        ("symbol_type", kind.toJson)])
  | .external identifier => caseJson "Extern" (.string identifier)
  | .align boundary fill =>
    caseJson "Align" (.object [("boundary", ofNat boundary.toNat), ("fill", ofNat fill.toNat)])
  | .data declaration => caseJson "Data" declaration.toJson
  | .comment text => caseJson "Comment" (.string text)
  | .group children => caseJson "Group" (.array (listToJson children))
  | .instruction i => caseJson "Instruction" i.toJson

/-- The statements as they are stored. -/
def listToJson : List Statement → List Json
  | [] => []
  | s :: rest => s.toJson :: listToJson rest

end

end Statement

/-- The section as it is stored. -/
def Section.toJson (s : Section) : Json :=
  .object [
    ("name", .string s.name),
    ("kind", nameJson SectionKind.names s.kind),
    ("alignment", ofNat s.alignment.toNat),
    ("address", ofOption ofWord s.address),
    ("contents", .array (Statement.listToJson s.contents))]

/-- The program as it is stored. -/
def Program.toJson (p : Program) : Json :=
  .object [
    ("mode", p.mode.toJson),
    ("sections", .array (p.sections.map Section.toJson))]

/-- The symbol as it is stored. -/
def Symbol.toJson (s : Symbol) : Json :=
  .object [
    ("identifier", .string s.identifier),
    ("symbol_type", s.kind.toJson),
    ("defining_section", ofOption ofNat s.home),
    ("defining_file", ofOption ofNat s.file),
    ("is_absolute", .bool s.isAbsolute),
    ("value", ofWord s.value),
    ("size", ofNat s.size.toNat)]

/-- The relocation as it is stored. -/
def Relocation.toJson (r : Relocation) : Json :=
  .object [
    ("target_symbol", ofNat r.target),
    ("section", ofNat r.home),
    ("offset", ofWord r.offset),
    ("addend", ofWord r.addend),
    ("kind", nameJson RelocationKind.names r.kind),
    ("size", r.size.toJson)]

/-- The container as it is stored. -/
def Container.toJson (c : Container) : Json :=
  .object [
    ("supports_public_symbols", .bool c.exportsSymbols),
    ("supports_extern_symbols", .bool c.importsSymbols),
    ("supports_arbitrary_section_start", .bool c.fixesStarts)]

/-- The context as it is stored. -/
def Context.toJson (ctx : Context) : Json :=
  .object [
    ("address", ofWord ctx.address),
    ("section", ofOption ofNat ctx.current),
    ("symbols", .object [("symbols", .array (ctx.symbols.symbols.map Symbol.toJson))]),
    ("relocations", .array (ctx.relocations.toList.map Relocation.toJson)),
    ("mode", ctx.mode.toJson),
    ("file", ofOption ofNat ctx.file)]

end Assembler
