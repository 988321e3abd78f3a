import Assembler.Statement

/-!
# Sections

A named part of the program with a place in the address space.
-/

namespace Assembler

/-- What a section holds. -/
inductive SectionKind
  | text
  | data
  /-- Zeros, which take addresses but no part of the image. -/
  | bss
deriving DecidableEq, Repr

instance : Inhabited SectionKind := ⟨.text⟩

/-- A part of the program. -/
structure Section where
  name : String
  kind : SectionKind
  alignment : UInt64
  /-- Where the section starts; without it, after the section before. -/
  address : Option Word
  contents : List Statement

namespace Section

/-- A section without contents, placed after the one before. -/
def new (name : String) (kind : SectionKind) : Section := ⟨name, kind, 1, none, []⟩

/-- The section with a statement after the others. -/
def push (s : Section) (item : Statement) : Section := { s with contents := s.contents ++ [item] }

end Section

end Assembler
