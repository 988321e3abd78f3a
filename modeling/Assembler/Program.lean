import Assembler.ObjectFile

/-!
# Programs

A program as it is stored: the mode that it is meant for, and its sections in layout order.
-/

namespace Assembler

/-- A stored program. -/
structure Program where
  mode : Mode
  sections : List Section

/-- The program as an object file, in the given mode or else its own. -/
def Program.toObject (p : Program) (container : Container) (mode : Option Mode) : ObjectFile :=
  { ObjectFile.new (mode.getD p.mode) container with sections := p.sections }

end Assembler
