import Assembler.Form

/-!
# Opcodes

A mnemonic with its forms. They are tried in order, and the first that accepts the operands is
taken. It is not always the shortest of those that do: a jump whose target states no size takes a
full distance, and `mov` to a 64-bit register takes eight bytes for a number that is not known.
-/

namespace Assembler

/-- A mnemonic and its encodings. -/
structure Opcode where
  mnemonic : String
  forms : List Form
deriving DecidableEq, Repr

end Assembler
