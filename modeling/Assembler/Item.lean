import Assembler.Instruction
import Assembler.Sink

/-!
# Items

What the first pass makes of a statement: a piece of the image whose length is settled, while its
bytes may still depend on symbols.
-/

namespace Assembler

/-- A piece of the image. -/
inductive Item
  /-- Bytes that are known. -/
  | raw (run : Run)
  /-- Zeroed space. -/
  | reserve (count : Nat)
  /-- One value. -/
  | data (field : Field)
  | instruction (encoded : Encoded)

namespace Item

/-- Number of bytes of the item. -/
def length : Item → Nat
  | .raw run => run.length
  | .reserve count => count
  | .data field => field.size.bytes
  | .instruction encoded => encoded.length

/-- Whether the item is known to be zeros, as the contents of a section without an image have to
be. -/
def isZeroFill : Item → Bool
  | .raw run => run.isZero
  | .reserve _ => true
  | .data _ => false
  | .instruction _ => false

end Item

end Assembler
