import Assembler.Expr.Error
import Assembler.Mode
import Assembler.Relocation
import Assembler.SymbolTable
import Assembler.Value

/-!
# The context of an assembly

Both passes carry a cursor (an address and a section) and the tables that they fill. A section has a
start symbol; positions in a section are measured from it.

* `openSection`, `enterSection`: move the cursor to a section, with or without defining its start.
* `Value.resolve`: turns a value into a number, or into the target of a relocation.
* `addRelocation`: lists a field under the current section.
-/

namespace Assembler

/-- Cursor and tables of one assembly. -/
structure Context where
  address : Word
  /-- The section that the cursor is in. -/
  current : Option SectionId
  symbols : SymbolTable
  relocations : Array Relocation
  mode : Mode
  file : Option FileId
deriving DecidableEq, Repr

/-- What a value means for the field that it is written to. -/
inductive Resolved
  | value (value : Word)
  /-- The field is a placeholder, to be patched with the symbol's address plus `addend`. -/
  | relocate (symbol : SymbolId) (addend : Word)
deriving DecidableEq, Repr

namespace Context

/-- The context before anything is assembled. -/
def new (mode : Mode) : Context where
  address := 0
  current := none
  symbols := .empty
  relocations := #[]
  mode := mode
  file := none

/-- Rewinds the cursor. The tables stay. -/
def reset (ctx : Context) : Context := { ctx with address := 0, current := none }

/-- Moves the cursor to `base` in a section. -/
def enterSection (ctx : Context) (id : SectionId) (base : Word) : Context :=
  { ctx with current := some id, address := base }

/-- Identifier of a section's start symbol. -/
def startName (id : SectionId) : String := "section." ++ id.repr ++ ".start"

/-- The start symbol of the current section, if it is defined. -/
def startSymbol? (ctx : Context) : Option SymbolId :=
  ctx.current.bind fun id => ctx.symbols.idOf? (startName id)

/-- Address of the start symbol of the current section, or zero without one. -/
def sectionStart (ctx : Context) : Word :=
  match ctx.startSymbol?.bind ctx.symbols.get? with
  | some s => s.value
  | none => 0

/-- Registers a symbol, and gives its id. -/
def insert (ctx : Context) (s : Symbol) : SymbolId × Context :=
  let (id, symbols) := ctx.symbols.insert s
  (id, { ctx with symbols := symbols })

/-- Defines a symbol at `value` in the current section. -/
def defineHere (ctx : Context) (s : Symbol) (value : Word) : SymbolId × Context :=
  let (id, symbols) := ctx.symbols.define s value ctx.current ctx.file
  (id, { ctx with symbols := symbols })

/-- Enters a section for the first time, and defines its start symbol. -/
def openSection (ctx : Context) (id : SectionId) (base : Word) : SymbolId × Context :=
  (ctx.enterSection id base).defineHere (.declare (startName id) .internal) base

/-- Lists a field of the current section for relocation. -/
def addRelocation (ctx : Context) (target : SymbolId) (fieldAddress addend : Word)
    (kind : RelocationKind) (size : DataSize) : Context :=
  let relocation : Relocation :=
    { target := target
      home := ctx.current.getD 0
      offset := fieldAddress - ctx.sectionStart
      addend := addend
      kind := kind
      size := size }
  { ctx with relocations := ctx.relocations.push relocation }

end Context

/-- A step that evaluates something in a context. Its effects stay when it fails. -/
abbrev Evaluate := EStateM EvalError Context

/-- The number that a value stands for, or the symbol that it has to wait for. An identifier that
the table lacks enters it as an undefined symbol, so that relocations can name it. -/
def Value.resolve (v : Value) : Evaluate Resolved := do
  match v.anchor with
  | none => return .value v.constant
  | some (.symbol id) =>
    match (← get).symbols.get? id with
    | some s => if s.isImport then return .relocate id v.constant else return .value v.constant
    | none => throw (.unresolvedSymbol ("#" ++ id.repr))
  | some (.unresolved identifier) =>
    let id ← modifyGet fun ctx => ctx.insert (.declare identifier .plain)
    return .relocate id v.constant

end Assembler
