import Assembler.Symbol

/-!
# Values

What an expression evaluates to: a number, or an address that moves with a symbol. The constant of
such an address includes the symbol's current value, so that it is the address as far as it is
known.
-/

namespace Assembler

/-- What a value moves with. -/
inductive Anchor
  | symbol (id : SymbolId)
  /-- An identifier that the symbol table does not hold. -/
  | unresolved (identifier : String)
deriving DecidableEq, Repr

/-- A number, relative to an anchor if it has one. -/
structure Value where
  constant : Word
  anchor : Option Anchor
deriving DecidableEq, Repr

namespace Value

/-- A number that moves with nothing. -/
def absolute (constant : Word) : Value := ⟨constant, none⟩

/-- An address that moves with an anchor. -/
def relative (constant : Word) (anchor : Anchor) : Value := ⟨constant, some anchor⟩

/-- Whether the value moves with nothing. -/
def isAbsolute (v : Value) : Bool := v.anchor.isNone

end Value

end Assembler
