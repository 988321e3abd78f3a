import Assembler.Proofs.Arrangement
import Assembler.Proofs.Translation

/-!
# Alignment in exact integers

The padding of an address is the least number of bytes that takes it to a multiple of the boundary,
counted in integers. A power of two divides the size of a word, so that the aligned address is a
multiple of it also where the sum wraps; of another boundary it is one where the sum does not.

Main statement: `alignment_isExact`.
-/

namespace Assembler

namespace Word

variable {boundary : UInt64}

/-- The padding is the least distance to a multiple of the boundary, and shorter than the
boundary. -/
theorem padding_isLeast (hpos : 0 < boundary.toNat) (w : Word) :
    IsLeast {p : Int | 0 ≤ p ∧ (boundary.toNat : Int) ∣ w.toInt + p} (w.padding boundary).toInt ∧
      (w.padding boundary).toInt < boundary.toNat := by
  rw [toInt_padding hpos]
  obtain ⟨⟨hdvd, hle⟩, hleast⟩ := isLeast_add_neg_emod w.toInt hpos
  refine ⟨⟨⟨by omega, hdvd⟩, ?_⟩, Int.emod_lt_of_pos _ (by omega)⟩
  rintro p ⟨hp, hmultiple⟩
  have := hleast ⟨hmultiple, by omega⟩
  omega

/-- The aligned address is a multiple of the boundary, also where a power of two takes it past the
last word. -/
theorem dvd_align (hpos : 0 < boundary.toNat) {w : Word}
    (h : isPowerOfTwoNat boundary.toNat ∨ w.toInt + (w.padding boundary).toInt < 2 ^ 127) :
    (boundary.toNat : Int) ∣ (w.align boundary).toInt := by
  have hsum := (padding_isLeast hpos w).1.1.2
  rcases h with hpow | hlt
  · apply Int.dvd_of_emod_eq_zero
    rw [align, toInt_add_emod hpow]
    exact Int.emod_eq_zero_of_dvd hsum
  · rw [toInt_padding hpos] at hsum hlt
    rwa [toInt_align hpos hlt]

theorem padding_of_dvd {w : Word} (h : (boundary.toNat : Int) ∣ w.toInt) :
    w.padding boundary = 0 := by
  rcases Nat.eq_zero_or_pos boundary.toNat with hzero | hpos
  · simp [padding, hzero]
  · apply BitVec.eq_of_toInt_eq
    rw [toInt_padding hpos, Int.emod_eq_zero_of_dvd (Int.dvd_neg.2 h)]
    rfl

theorem align_of_dvd {w : Word} (h : (boundary.toNat : Int) ∣ w.toInt) : w.align boundary = w := by
  rw [align, padding_of_dvd h]
  exact BitVec.add_zero w

/-- The padding is counted in 64 bits without a loss. -/
theorem exists_count_padding (hpos : 0 < boundary.toNat) (w : Word) :
    ∃ n : Nat, (n : Int) = (w.padding boundary).toInt ∧ (w.padding boundary).toCount? = some n := by
  obtain ⟨⟨⟨hnonneg, -⟩, -⟩, hsmall⟩ := padding_isLeast hpos w
  have hboundary : boundary.toNat < 2 ^ 64 := boundary.toNat_lt
  have hpow : pow2 64 = 2 ^ 64 := rfl
  refine ⟨(w.padding boundary).toInt.toNat, Int.toNat_of_nonneg hnonneg, ?_⟩
  rw [toCount?, if_pos (by omega)]

end Word

namespace Statement

variable {boundary : UInt64}

theorem construct_align_of_not (h : ¬ Word.isPowerOfTwoNat boundary.toNat) (fill : UInt8)
    (ctx : Context) :
    (align boundary fill).construct ctx = .error (.argument (.notPowerOfTwo boundary)) ctx := by
  have hplace : (align boundary fill).place ctx =
      .error (.argument (.notPowerOfTwo boundary)) ctx := by
    simp [place_align_apply, padding, h]
  exact constructLeaf_eq_error.2 ⟨hplace, rfl⟩

/-- Padding is one run of the fill byte, or nothing, and takes the cursor to the aligned address. -/
theorem construct_align (h : Word.isPowerOfTwoNat boundary.toNat) (fill : UInt8) (ctx : Context) :
    ∃ n : Nat, (n : Int) = (ctx.address.padding boundary).toInt ∧
      (align boundary fill).construct ctx =
        .ok (if n = 0 then [] else [.raw (.fill n fill)])
          { ctx with address := ctx.address.align boundary } := by
  obtain ⟨n, hn, hcount⟩ :=
    Word.exists_count_padding (Word.pos_of_isPowerOfTwoNat h) ctx.address
  have hadvance : advance ctx.address (if n = 0 then [] else [.raw (.fill n fill)]) =
      ctx.address.align boundary := by
    have hword : Word.ofNat n = ctx.address.padding boundary := by
      rw [Word.ofNat, ← BitVec.ofInt_natCast, hn, BitVec.ofInt_toInt]
    rw [advance_eq, Word.align, ← hword]
    split
    next hzero => rw [hzero, totalLength_nil]
    next => rfl
  refine ⟨n, hn, constructLeaf_eq_ok.2 ⟨ctx, ?_, by rw [hadvance]⟩⟩
  simp [place_align_apply, padding, h, hcount]

end Statement

/-- The padding of an address, a negative one included, is the least number of bytes to a multiple
of the boundary, and shorter than the boundary. Aligning gives a multiple, and gives it back when it
is aligned again: for a power of two at every address, for any other boundary where the sum is a
word. A statement that aligns to a power of two becomes exactly that many fill bytes, or nothing if
there is nothing to fill, takes the cursor to a multiple and becomes nothing there; with another
boundary it is refused and changes nothing. -/
theorem alignment_isExact (w : Word) (boundary : UInt64) :
    (0 < boundary.toNat →
      IsLeast {p : Int | 0 ≤ p ∧ (boundary.toNat : Int) ∣ w.toInt + p} (w.padding boundary).toInt ∧
      (w.padding boundary).toInt < boundary.toNat ∧
      (boundary.toNat.isPowerOfTwo ∨ w.toInt + (w.padding boundary).toInt < 2 ^ 127 →
        (boundary.toNat : Int) ∣ (w.align boundary).toInt ∧
        (w.align boundary).align boundary = w.align boundary)) ∧
    ∀ (fill : UInt8) (ctx : Context),
      (boundary.toNat.isPowerOfTwo → ∃ (n : Nat) (after : Context),
        (n : Int) = (ctx.address.padding boundary).toInt ∧
        (Statement.align boundary fill).construct ctx =
          .ok (if n = 0 then [] else [.raw (.fill n fill)]) after ∧
        after = { ctx with address := ctx.address.align boundary } ∧
        (boundary.toNat : Int) ∣ after.address.toInt ∧
        (Statement.align boundary fill).construct after = .ok [] after) ∧
      (¬ boundary.toNat.isPowerOfTwo →
        (Statement.align boundary fill).construct ctx =
          .error (.argument (.notPowerOfTwo boundary)) ctx) := by
  rw [← Word.isPowerOfTwoNat_iff]
  refine ⟨fun hpos => ?_, fun fill ctx => ⟨fun hpow => ?_, fun hnot => ?_⟩⟩
  · obtain ⟨hleast, hsmall⟩ := Word.padding_isLeast hpos w
    refine ⟨hleast, hsmall, fun h => ?_⟩
    have hdvd := Word.dvd_align hpos h
    exact ⟨hdvd, Word.align_of_dvd hdvd⟩
  · obtain ⟨n, hn, hconstruct⟩ := Statement.construct_align hpow fill ctx
    have hdvd : (boundary.toNat : Int) ∣ (ctx.address.align boundary).toInt :=
      Word.dvd_align (Word.pos_of_isPowerOfTwoNat hpow) (.inl hpow)
    refine ⟨n, _, hn, hconstruct, rfl, hdvd, ?_⟩
    -- there is nothing to fill at a multiple
    obtain ⟨m, hm, hagain⟩ :=
      Statement.construct_align hpow fill { ctx with address := ctx.address.align boundary }
    obtain rfl : m = 0 := by
      rw [Word.padding_of_dvd hdvd] at hm
      exact Int.natCast_eq_zero.1 hm
    rwa [Word.align_of_dvd hdvd] at hagain
  · exact Statement.construct_align_of_not hnot fill ctx

/-- A context whose cursor is at the last word. -/
def atLastWord : Context := { Context.new .bit32 with address := BitVec.intMax 128 }

/-- One byte behind the last word comes the first, which is a multiple of 16; 12 is no boundary. -/
theorem alignment_isExact_lastWord :
    (16 : UInt64).toNat.isPowerOfTwo ∧ ¬ (12 : UInt64).toNat.isPowerOfTwo ∧
      (atLastWord.address.align 16).toInt = -2 ^ 127 ∧
      ((16 : Nat) : Int) ∣ (atLastWord.address.align 16).toInt ∧
      (atLastWord.address.align 16).align 16 = atLastWord.address.align 16 ∧
      (∃ after, (Statement.align 16 0x90).construct atLastWord = .ok [.raw (.fill 1 0x90)] after ∧
        (Statement.align 16 0x90).construct after = .ok [] after) ∧
      (Statement.align 12 0x90).construct atLastWord =
        .error (.argument (.notPowerOfTwo 12)) atLastWord := by
  have hpow : (16 : UInt64).toNat.isPowerOfTwo := ⟨4, rfl⟩
  have hnot : ¬ (12 : UInt64).toNat.isPowerOfTwo := by
    rw [← Word.isPowerOfTwoNat_iff]
    decide
  obtain ⟨hwords, hstatements⟩ := alignment_isExact atLastWord.address 16
  obtain ⟨-, -, haligned⟩ := hwords (by decide)
  obtain ⟨hdvd, hagain⟩ := haligned (.inl hpow)
  obtain ⟨n, after, hn, hfirst, -, -, hsecond⟩ := (hstatements 0x90 atLastWord).1 hpow
  obtain rfl : n = 1 := Int.ofNat_inj.1 (hn.trans (by decide))
  exact ⟨hpow, hnot, by decide, hdvd, hagain, ⟨after, hfirst, hsecond⟩,
    ((alignment_isExact atLastWord.address 12).2 0x90 atLastWord).2 hnot⟩

end Assembler
