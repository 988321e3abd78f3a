import Assembler.Instruction

/-!
# Statements

The program tree: labels, definitions, data, padding and instructions, in groups.
-/

namespace Assembler

/-- Data to put into a section. -/
inductive DataDeclaration
  | bytes (content : List UInt8)
  /-- Values of one width. -/
  | values (size : DataSize) (exprs : List Expr)
  /-- Zeroed space for a number of values of one width. -/
  | reserve (size : DataSize) (count : UInt64)

/-- A node of the program tree. -/
inductive Statement
  /-- Names the cursor. -/
  | label (identifier : String) (kind : SymbolKind)
  /-- Names the value of an expression. -/
  | define (identifier : String) (expr : Expr) (kind : SymbolKind)
  /-- Declares a symbol of another assembly. -/
  | external (identifier : String)
  /-- Fills up to a multiple of `boundary`. -/
  | align (boundary : UInt64) (fill : UInt8)
  | data (declaration : DataDeclaration)
  | comment (text : String)
  | group (children : List Statement)
  | instruction (instruction : Instruction)

/-- The bytes of a text in UTF-8. -/
def DataDeclaration.ofText (text : String) : DataDeclaration := .bytes text.toUTF8.toList

end Assembler
