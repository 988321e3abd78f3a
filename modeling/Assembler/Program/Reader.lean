import Assembler.Json.Reader
import Assembler.Program.Names

/-!
# Reading stored programs

From JSON to the program tree. A case of a choice is an object of one member, named for the case; a
record is an object of its fields, of which some may be left out, or an array of the fields in their
order, of which the last may be left out if they have a default.
-/

namespace Assembler

open Json

/-- Reads a data size. -/
def DataSize.ofJson? : Json → Option DataSize := named? DataSize.names

/-- Reads a mode. -/
def Mode.ofJson? : Json → Option Mode := named? Mode.names

/-- Reads a register. -/
def Register.ofJson? : Json → Option Register := named? Register.names

/-- Reads a visibility. -/
def SymbolKind.ofJson? : Json → Option SymbolKind := named? SymbolKind.names

/-- Reads an expression. Function nodes are not stored. -/
def Expr.ofJson? : Json → Option Expr
  | .object [("Constant", value)] => value.word?.map .constant
  | .object [("Reference", identifier)] => identifier.string?.map .reference
  | .object [("Unary", .array [op, e])] => do
    some (.unary (← named? UnaryOp.names op) (← Expr.ofJson? e))
  | .object [("Binary", .array [op, l, r])] => do
    some (.binary (← named? BinaryOp.names op) (← Expr.ofJson? l) (← Expr.ofJson? r))
  | j => named? [("CurrentPosition", .position), ("CurrentSection", .sectionStart)] j

/-- Reads a memory operand. -/
def Address.ofJson? (j : Json) : Option Address := do
  let m ← j.record? ["size", "address_size", "segment", "base", "index", "scale", "displacement",
    "rip_relative"] 8
  some {
    size := ← required m "size" DataSize.ofJson?
    addressSize := ← optional m "address_size" DataSize.ofJson?
    segment := ← optional m "segment" Register.ofJson?
    base := ← optional m "base" Register.ofJson?
    index := ← optional m "index" Register.ofJson?
    scale := ← required m "scale" uint8?
    displacement := ← optional m "displacement" Expr.ofJson?
    ripRelative := ← required m "rip_relative" bool? }

/-- Reads a direct offset. -/
def DirectOffset.ofJson? (j : Json) : Option DirectOffset := do
  let m ← j.record? ["size", "address", "segment", "address_size"] 4
  some {
    size := ← required m "size" DataSize.ofJson?
    address := ← required m "address" Expr.ofJson?
    segment := ← optional m "segment" Register.ofJson?
    addressSize := ← optional m "address_size" DataSize.ofJson? }

/-- Reads an operand. -/
def Operand.ofJson? : Json → Option Operand
  | .object [("Register", j)] => (Register.ofJson? j).map .register
  | .object [("Immediate", j)] => do
    let m ← j.record? ["expr", "size"] 2
    some (.immediate ⟨← required m "expr" Expr.ofJson?, ← optional m "size" DataSize.ofJson?⟩)
  | .object [("Memory", j)] => (Address.ofJson? j).map .memory
  | .object [("MemoryOffset", j)] => (DirectOffset.ofJson? j).map .offset
  | .object [("RelativeOffset", j)] => do
    let m ← j.record? ["target", "size"] 2
    some (.branch ⟨← required m "target" Expr.ofJson?, ← optional m "size" DataSize.ofJson?⟩)
  | _ => none

/-- Reads an instruction. -/
def Instruction.ofJson? (j : Json) : Option Instruction := do
  let m ← j.record? ["mnemonic", "operands"] 1
  some {
    mnemonic := ← required m "mnemonic" string?
    operands := ← defaulted m "operands" [] (list? Operand.ofJson?) }

/-- Reads a data declaration. -/
def DataDeclaration.ofJson? : Json → Option DataDeclaration
  | .object [("Bytes", j)] => (j.list? uint8?).map .bytes
  | .object [("Values", j)] => do
    let m ← j.record? ["size", "values"] 2
    some (.values (← required m "size" DataSize.ofJson?)
      (← required m "values" (list? Expr.ofJson?)))
  | .object [("Reserve", j)] => do
    let m ← j.record? ["size", "count"] 2
    some (.reserve (← required m "size" DataSize.ofJson?) (← required m "count" uint64?))
  | _ => none

namespace Statement

mutual

/-- Reads a statement. -/
def ofJson? : Json → Option Statement
  | .object [("Label", j)] => do
    let m ← j.record? ["identifier", "symbol_type"] 1
    some (.label (← required m "identifier" string?)
      (← defaulted m "symbol_type" .plain SymbolKind.ofJson?))
  | .object [("Define", j)] => do
    let m ← j.record? ["identifier", "expr", "symbol_type"] 2
    some (.define (← required m "identifier" string?) (← required m "expr" Expr.ofJson?)
      (← defaulted m "symbol_type" .plain SymbolKind.ofJson?))
  | .object [("Extern", j)] => j.string?.map .external
  | .object [("Align", j)] => do
    let m ← j.record? ["boundary", "fill"] 1
    some (.align (← required m "boundary" uint64?) (← defaulted m "fill" 0 uint8?))
  | .object [("Data", j)] => (DataDeclaration.ofJson? j).map .data
  | .object [("Comment", j)] => j.string?.map .comment
  | .object [("Group", .array items)] => (listOfJson? items).map .group
  | .object [("Instruction", j)] => (Instruction.ofJson? j).map .instruction
  | _ => none

/-- Reads statements one after the other. -/
def listOfJson? : List Json → Option (List Statement)
  | [] => some []
  | j :: rest => do some ((← ofJson? j) :: (← listOfJson? rest))

end

end Statement

/-- Reads a section. -/
def Section.ofJson? (j : Json) : Option Section := do
  let m ← j.record? ["name", "kind", "alignment", "address", "contents"] 1
  some {
    name := ← required m "name" string?
    kind := ← defaulted m "kind" .text (named? SectionKind.names)
    alignment := ← defaulted m "alignment" 1 uint64?
    address := ← optional m "address" word?
    contents := ← defaulted m "contents" [] (list? Statement.ofJson?) }

namespace Program

/-- Reads a program. -/
def ofJson? (j : Json) : Option Program := do
  let m ← j.record? ["mode", "sections"] 2
  some {
    mode := ← defaulted m "mode" .bit32 Mode.ofJson?
    sections := ← required m "sections" (list? Section.ofJson?) }

/-- Reads the text of a program. -/
def parse? (text : String) : Option Program := (Json.parse? text).bind ofJson?

end Program

/-- Reads a symbol. -/
def Symbol.ofJson? (j : Json) : Option Symbol := do
  let m ← j.record? ["identifier", "symbol_type", "defining_section", "defining_file",
    "is_absolute", "value", "size"] 7
  some {
    identifier := ← required m "identifier" string?
    kind := ← required m "symbol_type" SymbolKind.ofJson?
    home := ← optional m "defining_section" (nat? UInt64.size)
    file := ← optional m "defining_file" (nat? UInt64.size)
    isAbsolute := ← required m "is_absolute" bool?
    value := ← required m "value" word?
    size := ← required m "size" uint64? }

end Assembler
