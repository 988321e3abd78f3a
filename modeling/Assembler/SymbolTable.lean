import Assembler.Symbol

/-!
# The symbol table

Symbols in the order in which their identifiers first appeared. The position of a symbol is its id.
Inserting a symbol whose identifier is known replaces the one of that name and keeps its id.

* `idOf?`, `find?`, `get?`: look up by identifier or by id.
* `insert`, `define`: the new table, and the id of the symbol in it.
-/

namespace Assembler

/-- Symbols by position, one for each identifier. -/
structure SymbolTable where
  symbols : List Symbol
deriving DecidableEq, Repr

namespace SymbolTable

/-- The table without symbols. -/
def empty : SymbolTable := ⟨[]⟩

/-- The id of the symbol with this identifier. -/
def idOf? (t : SymbolTable) (identifier : String) : Option SymbolId :=
  t.symbols.findIdx? fun s => s.identifier == identifier

/-- The symbol with this id. -/
def get? (t : SymbolTable) (id : SymbolId) : Option Symbol := t.symbols[id]?

/-- The symbol with this identifier. -/
def find? (t : SymbolTable) (identifier : String) : Option Symbol :=
  (t.idOf? identifier).bind t.get?

/-- Registers a symbol in place of any previous one with its identifier. -/
def insert (t : SymbolTable) (s : Symbol) : SymbolId × SymbolTable :=
  match t.idOf? s.identifier with
  | some id => (id, ⟨t.symbols.set id s⟩)
  | none => (t.symbols.length, ⟨t.symbols ++ [s]⟩)

/-- Registers a symbol with the given value and place, which override its own. -/
def define (t : SymbolTable) (s : Symbol) (value : Word) (home : Option SectionId)
    (file : Option FileId) : SymbolId × SymbolTable :=
  t.insert { s with value := value, home := home, file := file }

/-- The name of a symbol in a message: its identifier, or its id if the table lacks it. -/
def nameOf (t : SymbolTable) (id : SymbolId) : String :=
  match t.get? id with
  | some s => s.identifier
  | none => "#" ++ id.repr

end SymbolTable

end Assembler
