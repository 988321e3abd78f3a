import Assembler.Symbol

/-!
# Relocations

A field whose value depends on a symbol outside the assembly is written as zero and listed here, for
whoever learns the symbol's address later.
-/

namespace Assembler

/-- What a patched field receives, for a symbol at `S` with addend `A` and a field at `P`. -/
inductive RelocationKind
  /-- `S + A`. -/
  | absolute
  /-- `S + A - P`. -/
  | pcRelative
deriving DecidableEq, Repr

/-- A field to be patched. -/
structure Relocation where
  target : SymbolId
  /-- The section that the field is in. -/
  home : SectionId
  /-- Distance of the field from the start of its section. -/
  offset : Word
  addend : Word
  kind : RelocationKind
  size : DataSize
deriving DecidableEq, Repr

end Assembler
