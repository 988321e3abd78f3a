/-!
# Data sizes

The widths that values, operands, registers and addresses come in. A size is a number of bytes; the
unsized width stands for "no width given" and occupies no bytes.
-/

namespace Assembler

/-- Width of a value, operand or address. -/
inductive DataSize
  | unsized
  | bit8
  | bit16
  | bit32
  | bit64
  | bit80
  | bit128
deriving DecidableEq, Repr

namespace DataSize

instance : Inhabited DataSize := ⟨.unsized⟩

/-- Every size, narrowest first. -/
def all : List DataSize := [.unsized, .bit8, .bit16, .bit32, .bit64, .bit80, .bit128]

/-- Number of bytes a value of this size occupies. -/
def bytes : DataSize → Nat
  | .unsized => 0
  | .bit8 => 1
  | .bit16 => 2
  | .bit32 => 4
  | .bit64 => 8
  | .bit80 => 10
  | .bit128 => 16

/-- Number of bits a value of this size occupies. -/
def bits (size : DataSize) : Nat := 8 * size.bytes

/-- The size that occupies exactly `n` bytes. No size is named by zero bytes. -/
def ofBytes? : Nat → Option DataSize
  | 1 => some .bit8
  | 2 => some .bit16
  | 4 => some .bit32
  | 8 => some .bit64
  | 10 => some .bit80
  | 16 => some .bit128
  | _ => none

/-- The keyword that states the size in front of an operand. -/
def keyword : DataSize → String
  | .unsized => ""
  | .bit8 => "byte"
  | .bit16 => "word"
  | .bit32 => "dword"
  | .bit64 => "qword"
  | .bit80 => "tword"
  | .bit128 => "oword"

/-- The size as it reads in a message. -/
def text : DataSize → String
  | .unsized => "unsized"
  | size => size.bits.repr ++ "-bit"

theorem mem_all (size : DataSize) : size ∈ all := by
  cases size <;> decide

theorem ofBytes?_bytes {size : DataSize} (h : size ≠ .unsized) :
    ofBytes? size.bytes = some size := by
  cases size <;> simp_all [bytes, ofBytes?]

theorem bits_le (size : DataSize) : size.bits ≤ 128 := by
  cases size <;> decide

end DataSize

end Assembler
