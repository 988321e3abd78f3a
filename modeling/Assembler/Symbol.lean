import Assembler.Word.Text

/-!
# Symbols

A symbol names an address in a section, an absolute number, or something that another assembly
defines. The last kind is an import: it has neither a section nor an absolute value, whatever
visibility was declared for it.
-/

namespace Assembler

/-- Position of a symbol in the symbol table. -/
abbrev SymbolId := Nat

/-- Position of a section in the object file. -/
abbrev SectionId := Nat

/-- Number of the file that a symbol was defined in. -/
abbrev FileId := Nat

/-- Declared visibility of a symbol. -/
inductive SymbolKind
  | plain
  | internal
  | exported
  | weak
  | imported
deriving DecidableEq, Repr

instance : Inhabited SymbolKind := ⟨.plain⟩

/-- A named value. -/
structure Symbol where
  identifier : String
  kind : SymbolKind
  /-- The section that the symbol is defined in. -/
  home : Option SectionId
  /-- The file that the symbol is defined in. -/
  file : Option FileId
  isAbsolute : Bool
  value : Word
  size : UInt64
deriving DecidableEq, Repr

namespace Symbol

/-- A symbol without a definition. -/
def declare (identifier : String) (kind : SymbolKind) : Symbol where
  identifier := identifier
  kind := kind
  home := none
  file := none
  isAbsolute := false
  value := 0
  size := 0

/-- A number with a name. -/
def absolute (identifier : String) (value : Word) : Symbol :=
  { declare identifier .internal with isAbsolute := true, value := value }

/-- Whether the symbol's address comes from elsewhere. -/
def isImport (s : Symbol) : Bool := s.home.isNone && !s.isAbsolute

/-- Whether other assemblies may refer to the symbol. -/
def isExported (s : Symbol) : Bool := s.kind = .exported || s.kind = .weak

/-- The symbol as it reads in a listing. -/
def text (s : Symbol) : String :=
  let place :=
    if s.isAbsolute then " (absolute)"
    else match s.home with
      | some id => " (section " ++ id.repr ++ ")"
      | none => " (extern)"
  s.identifier ++ " = " ++ s.value.hex ++ place

end Symbol

end Assembler
