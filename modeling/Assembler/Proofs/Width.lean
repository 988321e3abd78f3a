import Assembler.Field
import Mathlib.Algebra.Group.Int.Defs
import Mathlib.Algebra.Group.Nat.Defs

/-!
# Numbers in a few bytes

A number that a size holds comes back when its low bytes are read: with a sign for a signed number,
and sign-extended for one that the processor extends to a wider size.

* `DataSize.HoldsSigned`, `DataSize.HoldsUnsigned`: the numbers of a size, as integers.
* `signExtend_setWidth_of_fitsSigned`, `signExtend_setWidth_of_fitsExtended`: the same for words.
* `Field.signExtend_of_accepts`: what a field accepts is what the processor makes of its bytes.
-/

namespace Assembler

namespace DataSize

variable {size : DataSize} {v : Int}

/-- The signed numbers of a size. -/
def HoldsSigned (size : DataSize) (v : Int) : Prop :=
  -2 ^ (size.bits - 1) ≤ v ∧ v < 2 ^ (size.bits - 1)

/-- The unsigned numbers of a size. -/
def HoldsUnsigned (size : DataSize) (v : Int) : Prop := 0 ≤ v ∧ v < 2 ^ size.bits

theorem two_pow_bits (hsize : size ≠ .unsized) : 2 ^ size.bits = 2 * 2 ^ (size.bits - 1) := by
  have hpos : 0 < size.bits := by cases size <;> first | contradiction | decide
  rw [← Nat.pow_succ', Nat.succ_eq_add_one, Nat.sub_add_cancel hpos]

/-- A signed number of a size is what its low bits of that size, or of more, say. -/
theorem HoldsSigned.bmod_eq (h : size.HoldsSigned v) (hsize : size ≠ .unsized) {n : Nat}
    (hn : size.bits ≤ n) : v.bmod (2 ^ n) = v := by
  obtain ⟨hlow, hhigh⟩ := h
  have hle : 2 * 2 ^ (size.bits - 1) ≤ 2 ^ n :=
    two_pow_bits hsize ▸ Nat.pow_le_pow_right (by decide) hn
  have hle' : (2 * 2 ^ (size.bits - 1) : Int) ≤ (2 ^ n : Nat) := by exact_mod_cast hle
  apply Int.bmod_eq_of_le_mul_two <;> omega

/-- The signed numbers of a size are those that its bits, read with a sign, give back. -/
theorem holdsSigned_iff (hsize : size ≠ .unsized) :
    size.HoldsSigned v ↔ v.bmod (2 ^ size.bits) = v := by
  refine ⟨fun h => h.bmod_eq hsize (Nat.le_refl _), fun h => ?_⟩
  have hhalf : ((2 ^ size.bits : Nat) : Int) = 2 * 2 ^ (size.bits - 1) := by
    exact_mod_cast two_pow_bits hsize
  obtain ⟨hlow, hhigh, -⟩ := (Int.bmod_eq_iff (Nat.two_pow_pos _)).1 h
  rw [hhalf] at hlow hhigh
  exact ⟨by omega, by omega⟩

end DataSize

namespace Word

variable {w : Word} {size target : DataSize}

/-- The low bits of a word read with a sign, from either view of the word. -/
theorem bmod_toNat (w : Word) {n : Nat} (hn : n ≤ 128) :
    (w.toNat : Int).bmod (2 ^ n) = w.toInt.bmod (2 ^ n) := by
  rw [BitVec.toInt_eq_toNat_bmod, Int.bmod_bmod_of_dvd]
  exact Nat.pow_dvd_pow 2 hn

theorem fitsSigned_iff : w.fitsSigned size ↔ size ≠ .unsized ∧ size.HoldsSigned w.toInt := by
  cases size with
  | unsized => simp [fitsSigned]
  | bit128 =>
    have hlow := w.le_toInt
    have hhigh := w.toInt_lt
    simpa [fitsSigned, DataSize.HoldsSigned, DataSize.bits, DataSize.bytes] using ⟨hlow, hhigh⟩
  | bit8 | bit16 | bit32 | bit64 | bit80 =>
    simp [fitsSigned, DataSize.HoldsSigned, DataSize.bits, DataSize.bytes, pow2, Nat.shiftLeft_eq]

theorem bmod_of_fitsSigned (h : w.fitsSigned size) {n : Nat} (hn : size.bits ≤ n) :
    w.toInt.bmod (2 ^ n) = w.toInt := by
  obtain ⟨hsize, hholds⟩ := fitsSigned_iff.1 h
  exact hholds.bmod_eq hsize hn

/-- A signed number of a size comes back from its low bits of that size. -/
theorem signExtend_setWidth_of_fitsSigned (h : w.fitsSigned size) {n : Nat} (hn : n ≤ 128) :
    (w.setWidth size.bits).signExtend n = w.setWidth n := by
  apply BitVec.eq_of_toInt_eq
  rw [BitVec.toInt_signExtend, BitVec.toInt_setWidth, BitVec.toInt_setWidth,
    bmod_toNat w size.bits_le, bmod_toNat w hn, bmod_of_fitsSigned h (Nat.le_refl _)]
  rcases Nat.le_total n size.bits with hle | hle
  · rw [Nat.min_eq_left hle]
  · rw [Nat.min_eq_right hle, bmod_of_fitsSigned h (Nat.le_refl _), bmod_of_fitsSigned h hle]

/-- Sign extension keeps the bits that it starts from. -/
theorem setWidth_signExtend (w : Word) {n : Nat} (hn : n ≤ target.bits) :
    BitVec.setWidth n (signExtend w target) = w.setWidth n := by
  have hlow : ∀ k, n ≤ k → k ≤ 128 →
      ((w.setWidth k).signExtend 128).setWidth n = w.setWidth n := by
    intro k hk hle
    apply BitVec.eq_of_getLsbD_eq
    intro i hi
    have hk : i < k := by omega
    have hword : i < 128 := by omega
    simp only [BitVec.getLsbD_setWidth, BitVec.getLsbD_signExtend, hi, hk, hword, decide_true,
      Bool.true_and, ↓reduceIte]
  cases target with
  | unsized => rfl
  | bit128 => rfl
  | bit8 | bit16 | bit32 | bit64 | bit80 => exact hlow _ hn (by decide)

/-- A number that the processor extends to a wider size comes back in that size. -/
theorem signExtend_setWidth_of_fitsExtended (h : w.fitsExtended size target)
    (hle : size.bits ≤ target.bits) :
    (w.setWidth size.bits).signExtend target.bits = w.setWidth target.bits := by
  rw [fitsExtended, Bool.or_eq_true, Bool.and_eq_true] at h
  rcases h with h | ⟨-, h⟩
  · exact signExtend_setWidth_of_fitsSigned h target.bits_le
  · -- the number that fits has the low bits of `w`
    have hback := signExtend_setWidth_of_fitsSigned h target.bits_le
    rwa [setWidth_signExtend w hle, setWidth_signExtend w (Nat.le_refl _)] at hback

end Word

/-- What a field accepts is what the processor makes of its bytes in the width that it reads them
in. -/
theorem Field.signExtend_of_accepts {f : Field} {width : DataSize} {v : Word} (h : f.accepts v)
    (hle : f.size.bits ≤ width.bits)
    (hextends : f.kind = .absolute → f.extendsTo = if f.size = width then none else some width) :
    (v.setWidth f.size.bits).signExtend width.bits = v.setWidth width.bits := by
  unfold accepts at h
  split at h
  · exact Word.signExtend_setWidth_of_fitsSigned h width.bits_le
  next target hkind htarget =>
    rw [hextends hkind] at htarget
    split at htarget
    · cases htarget
    · cases htarget
      exact Word.signExtend_setWidth_of_fitsExtended h hle
  next hkind hnone =>
    rw [hextends hkind] at hnone
    split at hnone
    next hsize =>
      rw [hsize, BitVec.signExtend_eq_setWidth_of_le _ (Nat.le_refl _), BitVec.setWidth_eq]
    · cases hnone

end Assembler
