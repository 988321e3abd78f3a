import Assembler.Proofs.Width
import Mathlib.Data.Int.ModEq
import Mathlib.Data.Nat.Digits.Defs

/-!
# What a field accepts

A field writes the low bytes of a number, and its reader makes a number of them again. `signedOf`
and `unsignedOf` read bytes with and without a sign. `Field.StandsFor` says which numbers the bytes
of a field are good for: a distance has a sign, a number that the processor extends counts in the
width that it is extended to, and any other is read either way.

Main statement: `Field.accepts_iff_standsFor`. A field accepts no number that its bytes would
change, and refuses none that they would keep.
-/

namespace Assembler

/-! ## Reading bytes -/

/-- The number that bytes stand for, least significant first. -/
def unsignedOf (bytes : List UInt8) : Nat := Nat.ofDigits 256 (bytes.map UInt8.toNat)

/-- The number that bytes stand for in two's complement: of those that are congruent to the unsigned
one, the one from minus half of their range up to half of it. -/
def signedOf (bytes : List UInt8) : Int := (unsignedOf bytes : Int).bmod (256 ^ bytes.length)

/-- The numbers that bytes in a field stand for. -/
def Field.StandsFor (f : Field) (bytes : List UInt8) (v : Int) : Prop :=
  match f.kind, f.extendsTo with
  | .relative, _ => signedOf bytes = v
  | .absolute, some width =>
    (width.HoldsSigned v ∨ width.HoldsUnsigned v) ∧ signedOf bytes ≡ v [ZMOD 2 ^ width.bits]
  | .absolute, none => signedOf bytes = v ∨ unsignedOf bytes = v

namespace Word

variable {w : Word} {size target : DataSize}

theorem toNat_byte (w : Word) (i : Nat) : (w.byte i).toNat = w.toNat / 256 ^ i % 256 := by
  show (w.extractLsb' (8 * i) 8).toNat = _
  rw [BitVec.extractLsb'_toNat, Nat.shiftRight_eq_div_pow, Nat.pow_mul]

/-- The low bytes of a word have its low bits. -/
theorem unsignedOf_leBytes (w : Word) (size : DataSize) :
    unsignedOf (w.leBytes size) = w.toNat % 2 ^ size.bits := by
  have hlow (n : Nat) :
      Nat.ofDigits 256 (((List.range n).map w.byte).map UInt8.toNat) = w.toNat % 256 ^ n := by
    induction n with
    | zero => simp [Nat.mod_one]
    | succ n ih =>
      rw [List.range_succ, List.map_append, List.map_append, Nat.ofDigits_append, ih,
        Nat.mod_pow_succ]
      simp [toNat_byte]
  rw [unsignedOf, leBytes, hlow, DataSize.bits, Nat.pow_mul]

theorem signedOf_leBytes (w : Word) (size : DataSize) :
    signedOf (w.leBytes size) = w.toInt.bmod (2 ^ size.bits) := by
  have hpow : 256 ^ size.bytes = 2 ^ size.bits := by rw [DataSize.bits, Nat.pow_mul]
  rw [signedOf, length_leBytes, hpow, unsignedOf_leBytes, Int.natCast_mod, Int.emod_bmod,
    bmod_toNat w size.bits_le]

/-! ## Numbers without a sign -/

/-- In 128 bits every word counts as unsigned, also one below zero. -/
theorem fitsUnsigned_iff (hsize : size ≠ .unsized) :
    w.fitsUnsigned size ↔ size = .bit128 ∨ size.HoldsUnsigned w.toInt := by
  cases size with
  | unsized => contradiction
  | bit128 => simp [fitsUnsigned]
  | bit8 | bit16 | bit32 | bit64 | bit80 =>
    simp [fitsUnsigned, DataSize.HoldsUnsigned, DataSize.bits, DataSize.bytes, pow2,
      Nat.shiftLeft_eq]

theorem holdsSigned_bit128 (w : Word) : DataSize.bit128.HoldsSigned w.toInt :=
  (fitsSigned_iff.1 rfl).2

theorem fitsEither_iff (hsize : size ≠ .unsized) :
    w.fitsEither size ↔ size.HoldsSigned w.toInt ∨ size.HoldsUnsigned w.toInt := by
  rw [fitsEither, Bool.or_eq_true, fitsSigned_iff, fitsUnsigned_iff hsize]
  constructor
  · rintro (⟨-, hsigned⟩ | rfl | hunsigned)
    · exact .inl hsigned
    · exact .inl w.holdsSigned_bit128
    · exact .inr hunsigned
  · rintro (hsigned | hunsigned)
    · exact .inl ⟨hsize, hsigned⟩
    · exact .inr (.inr hunsigned)

/-- The unsigned numbers of a size are those that its bits, read without a sign, give back. -/
theorem holdsUnsigned_iff :
    size.HoldsUnsigned w.toInt ↔ (unsignedOf (w.leBytes size) : Int) = w.toInt := by
  have hpow : ((2 ^ size.bits : Nat) : Int) = 2 ^ size.bits := by exact_mod_cast rfl
  rw [unsignedOf_leBytes, DataSize.HoldsUnsigned, ← hpow]
  constructor
  · rintro ⟨hlow, hhigh⟩
    have hmsb : w.msb = false := by
      rw [← Bool.not_eq_true, BitVec.msb_eq_toInt]
      simpa using hlow
    rw [BitVec.toInt_eq_toNat_of_msb hmsb] at hhigh ⊢
    rw [Nat.mod_eq_of_lt (Int.ofNat_lt.1 hhigh)]
  · intro hread
    have hlt : w.toNat % 2 ^ size.bits < 2 ^ size.bits := Nat.mod_lt _ (Nat.two_pow_pos _)
    omega

/-! ## Numbers that are extended -/

/-- Sign extension reads the low bits with a sign. -/
theorem toInt_signExtend (w : Word) (htarget : target ≠ .unsized) :
    (signExtend w target).toInt = w.toInt.bmod (2 ^ target.bits) := by
  have hlow (n : Nat) (hn : n ≤ 128) :
      ((w.setWidth n).signExtend 128).toInt = w.toInt.bmod (2 ^ n) := by
    rw [BitVec.toInt_signExtend, BitVec.toInt_setWidth, bmod_toNat w hn, Nat.min_eq_right hn,
      Int.bmod_bmod]
  cases target with
  | unsized => contradiction
  | bit128 => exact ((DataSize.holdsSigned_iff htarget).1 w.holdsSigned_bit128).symm
  | bit8 | bit16 | bit32 | bit64 | bit80 => exact hlow _ (DataSize.bits_le _)

/-- What the bytes stand for is congruent to the word in a wider size if it is what sign extension
makes of the word there. -/
theorem signedOf_modEq_iff (hsize : size ≠ .unsized) (hle : size.bits ≤ target.bits) :
    signedOf (w.leBytes size) ≡ w.toInt [ZMOD 2 ^ target.bits] ↔
      signedOf (w.leBytes size) = w.toInt.bmod (2 ^ target.bits) := by
  have hpow : ((2 ^ target.bits : Nat) : Int) = 2 ^ target.bits := by exact_mod_cast rfl
  have hnarrow : size.HoldsSigned (signedOf (w.leBytes size)) := by
    rw [DataSize.holdsSigned_iff hsize, signedOf_leBytes, Int.bmod_bmod]
  rw [← hpow]
  constructor
  · intro hmod
    rw [← hnarrow.bmod_eq hsize hle, ← Int.emod_bmod, hmod, Int.emod_bmod]
  · intro hextended
    rw [Int.ModEq, hextended, Int.bmod_emod]

/-- A number that fits when it is extended is one of the wider size, and congruent there to what its
bytes stand for. -/
theorem fitsExtended_iff (hsize : size ≠ .unsized) (hle : size.bytes ≤ target.bytes) :
    w.fitsExtended size target ↔
      (target.HoldsSigned w.toInt ∨ target.HoldsUnsigned w.toInt) ∧
        signedOf (w.leBytes size) ≡ w.toInt [ZMOD 2 ^ target.bits] := by
  have htarget : target ≠ .unsized := by
    rintro rfl
    cases size <;> contradiction
  have hbits : size.bits ≤ target.bits := Nat.mul_le_mul_left 8 hle
  have hextended : (signExtend w target).fitsSigned size ↔
      signedOf (w.leBytes size) = w.toInt.bmod (2 ^ target.bits) := by
    rw [fitsSigned_iff, DataSize.holdsSigned_iff hsize, toInt_signExtend w htarget,
      Int.bmod_bmod_of_dvd (Nat.pow_dvd_pow 2 hbits), signedOf_leBytes]
    exact and_iff_right hsize
  rw [fitsExtended, Bool.or_eq_true, Bool.and_eq_true, hextended, fitsUnsigned_iff htarget,
    signedOf_modEq_iff hsize hbits]
  constructor
  · rintro (hfits | ⟨rfl | hunsigned, hread⟩)
    · -- a signed number of the narrow size is one of the wider size, and extends to itself
      have hsame := bmod_of_fitsSigned hfits hbits
      refine ⟨.inl ((DataSize.holdsSigned_iff htarget).2 hsame), ?_⟩
      rw [hsame, signedOf_leBytes, bmod_of_fitsSigned hfits (Nat.le_refl _)]
    · exact ⟨.inl w.holdsSigned_bit128, hread⟩
    · exact ⟨.inr hunsigned, hread⟩
  · rintro ⟨hsigned | hunsigned, hread⟩
    · rw [(DataSize.holdsSigned_iff htarget).1 hsigned, signedOf_leBytes] at hread
      exact .inl (fitsSigned_iff.2 ⟨hsize, (DataSize.holdsSigned_iff hsize).2 hread⟩)
    · exact .inr ⟨.inr hunsigned, hread⟩

end Word

namespace Field

/-- A field accepts exactly the numbers that its bytes stand for. -/
theorem accepts_iff_standsFor {f : Field} (hsize : f.size ≠ .unsized)
    (hwidth : ∀ width, f.extendsTo = some width → f.size.bytes ≤ width.bytes) (v : Word) :
    f.accepts v ↔ f.StandsFor (v.leBytes f.size) v.toInt := by
  obtain ⟨expr, size, kind, extendsTo, operand⟩ := f
  have hsigned : size.HoldsSigned v.toInt ↔ signedOf (v.leBytes size) = v.toInt := by
    rw [DataSize.holdsSigned_iff hsize, Word.signedOf_leBytes]
  cases kind with
  | relative =>
    show v.fitsSigned size ↔ signedOf (v.leBytes size) = v.toInt
    rw [Word.fitsSigned_iff, hsigned]
    exact and_iff_right hsize
  | absolute =>
    cases extendsTo with
    | some width => exact Word.fitsExtended_iff hsize (hwidth width rfl)
    | none =>
      show v.fitsEither size ↔ signedOf (v.leBytes size) = v.toInt ∨ _ = v.toInt
      rw [Word.fitsEither_iff hsize, hsigned, Word.holdsUnsigned_iff]

/-- A byte that the processor extends to 32 bits. -/
def extendedByte : Field := (absolute (.constant 0) .bit8).signExtended .bit32

/-- Minus 16 as an unsigned number of 32 bits goes into a byte, and the unsigned byte of the same
bits does not. -/
theorem accepts_iff_standsFor_extendedByte :
    extendedByte.StandsFor [0xF0] 0xFFFFFFF0 ∧ ¬ extendedByte.StandsFor [0xF0] 0xF0 := by
  have hwidth : ∀ width, extendedByte.extendsTo = some width → 1 ≤ width.bytes := by
    intro width hextends
    cases hextends
    decide
  exact ⟨(accepts_iff_standsFor (by decide) hwidth 0xFFFFFFF0).1 (by decide),
    fun h => absurd ((accepts_iff_standsFor (by decide) hwidth 0xF0).2 h) (by decide)⟩

end Field

end Assembler
