import Assembler.DataSize

/-!
# Words

Every address, offset and immediate is a 128-bit two's-complement word. Addition, subtraction,
multiplication and negation wrap. A word has two views: `toInt`, the signed number it stands for,
and `toNat`, its bits read without a sign. Order, ranges and alignment go by the signed view; shifts
and the unsigned division go by the bits.

* `padding`, `align`: the distance to, and the place of, the next multiple of a boundary.
* `fitsSigned`, `fitsUnsigned`, `fitsEither`, `fitsExtended`: which sizes hold a word.
* `leBytes`: the little-endian bytes of the low end of a word.
-/

namespace Assembler

/-- A 128-bit two's-complement integer. -/
abbrev Word := BitVec 128

namespace Word

/-- The word congruent to `n` modulo `2 ^ 128`. -/
def ofNat (n : Nat) : Word := BitVec.ofNat 128 n

/-- The word congruent to `i` modulo `2 ^ 128`. -/
def ofInt (i : Int) : Word := BitVec.ofInt 128 i

/-- Two to the power of `n`. -/
def pow2 (n : Nat) : Int := (1 <<< n : Nat)

/-- The word that stands for exactly `i`, if there is one. -/
def ofInt? (i : Int) : Option Word :=
  if -pow2 127 ≤ i ∧ i < pow2 127 then some (ofInt i) else none

/-- Whether the signed view is below zero. -/
def isNegative (w : Word) : Bool := w.toInt < 0

/-- Signed order of two words. -/
def compare (a b : Word) : Ordering := Ord.compare a.toInt b.toInt

/-- The signed view as a count of bytes that a 64-bit machine can hold. -/
def toCount? (w : Word) : Option Nat :=
  if 0 ≤ w.toInt ∧ w.toInt < pow2 64 then some w.toInt.toNat else none

/-! ## Powers of two and alignment -/

/-- Whether `n` is a power of two. -/
def isPowerOfTwoNat (n : Nat) : Bool := n ≠ 0 && n &&& (n - 1) = 0

/-- Whether the signed view is a power of two. -/
def isPowerOfTwo (w : Word) : Bool := 0 < w.toInt && isPowerOfTwoNat w.toNat

/-- Bytes needed to advance `w` to the next multiple of `boundary`. A zero boundary needs none. -/
def padding (w : Word) (boundary : UInt64) : Word :=
  let b : Int := boundary.toNat
  if b = 0 then 0 else ofInt ((b - w.toInt % b) % b)

/-- The first multiple of `boundary` at or after `w`. -/
def align (w : Word) (boundary : UInt64) : Word := w + w.padding boundary

/-! ## Shifts and division -/

/-- Left shift by `amount`, read without a sign; 128 and more shift everything out. -/
def shiftLeft (w amount : Word) : Word :=
  if amount.toNat < 128 then w <<< amount.toNat else 0

/-- Right shift by `amount`, read without a sign. Zeros enter at the top. -/
def shiftRight (w amount : Word) : Word :=
  if amount.toNat < 128 then w >>> amount.toNat else 0

/-- Signed quotient, toward zero; the one that overflows wraps. There is none by zero. -/
def divSigned? (a b : Word) : Option Word := if b = 0 then none else some (a.sdiv b)

/-- Signed remainder, with the sign of `a`. There is none by zero. -/
def remSigned? (a b : Word) : Option Word := if b = 0 then none else some (a.srem b)

/-- Quotient of the unsigned views. There is none by zero. -/
def divUnsigned? (a b : Word) : Option Word := if b = 0 then none else some (a / b)

/-- Remainder of the unsigned views. There is none by zero. -/
def remUnsigned? (a b : Word) : Option Word := if b = 0 then none else some (a % b)

/-! ## Sizes that hold a word -/

/-- Whether `w` is a signed number of this size. Nothing is unsized; everything has 128 bits. -/
def fitsSigned (w : Word) : DataSize → Bool
  | .unsized => false
  | .bit128 => true
  | size => -pow2 (size.bits - 1) ≤ w.toInt && w.toInt < pow2 (size.bits - 1)

/-- Whether `w` is an unsigned number of this size. The 128 bits of any word count as one. -/
def fitsUnsigned (w : Word) : DataSize → Bool
  | .unsized => false
  | .bit128 => true
  | size => 0 ≤ w.toInt && w.toInt < pow2 size.bits

/-- Whether `w` is a signed or an unsigned number of this size. -/
def fitsEither (w : Word) (size : DataSize) : Bool := w.fitsSigned size || w.fitsUnsigned size

/-- The first size among 8, 16, 32 and 64 bits that passes `fits`, or else 128 bits. -/
def smallestSize (fits : DataSize → Bool) : DataSize :=
  ([.bit8, .bit16, .bit32, .bit64].find? fits).getD .bit128

/-- The low `size` bytes of `w` read as a signed number. The unsized width keeps all of `w`. -/
def signExtend (w : Word) : DataSize → Word
  | .unsized => w
  | .bit128 => w
  | size => (w.setWidth size.bits).signExtend 128

/-- Whether `size` bytes that the processor sign-extends to `target` bytes give `w` there. -/
def fitsExtended (w : Word) (size target : DataSize) : Bool :=
  w.fitsSigned size || (w.fitsUnsigned target && (signExtend w target).fitsSigned size)

/-- The byte of weight `256 ^ i`. -/
def byte (w : Word) (i : Nat) : UInt8 := ⟨w.extractLsb' (8 * i) 8⟩

/-- The low `size` bytes of `w`, least significant first. -/
def leBytes (w : Word) (size : DataSize) : List UInt8 := (List.range size.bytes).map w.byte

@[simp]
theorem length_leBytes (w : Word) (size : DataSize) : (w.leBytes size).length = size.bytes := by
  simp [leBytes]

end Word

end Assembler
