import Assembler.Error
import Assembler.Section
import Assembler.SymbolTable

/-!
# Containers

What the file around an image can express. An image alone is final; a linkable object leaves symbols
and the places of its sections to others.
-/

namespace Assembler

/-- What a container can express. -/
structure Container where
  exportsSymbols : Bool
  importsSymbols : Bool
  /-- Whether a section can have a start address of its own. -/
  fixesStarts : Bool
deriving DecidableEq, Repr

namespace Container

/-- The image alone. -/
def flat : Container := ⟨false, false, true⟩

/-- An object for a linker. -/
def relocatable : Container := ⟨true, true, false⟩

instance : Inhabited Container := ⟨flat⟩

/-- What is wrong with a symbol in this container. A symbol that was only referred to counts as
an import. -/
def symbolFault? (c : Container) (s : Symbol) : Option ContainerError :=
  match s.kind with
  | .imported => if c.importsSymbols then none else some (.importedSymbol s.identifier)
  | .exported => if c.exportsSymbols then none else some (.exportedSymbol s.identifier)
  | .weak => if c.exportsSymbols then none else some (.exportedSymbol s.identifier)
  | .plain =>
    if s.isImport && !c.importsSymbols then some (.undefinedSymbol s.identifier) else none
  | .internal => none

/-- What is wrong with a section in this container. -/
def sectionFault? (c : Container) (s : Section) : Option ContainerError :=
  if c.fixesStarts || s.address.isNone then none else some (.fixedStart s.name)

/-- Checks symbols in table order, then sections. -/
def check (c : Container) (symbols : SymbolTable) (sections : List Section) :
    Except ContainerError Unit :=
  match (symbols.symbols.findSome? c.symbolFault?).or (sections.findSome? c.sectionFault?) with
  | some e => .error e
  | none => .ok ()

end Container

end Assembler
