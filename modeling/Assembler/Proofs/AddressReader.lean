import Assembler.Proofs.Reader

/-!
# Reading an address

How a processor reads the bytes of a memory operand. `readAddress` gives the registers, what
ModRM.reg holds, whether the address counts from the next instruction, and the width of the
displacement behind the bytes. Each shape of the bytes has a lemma that says which reading it leads
to.
-/

namespace Assembler

/-- The fields of a SIB byte. -/
def Sib.ofByte (b : UInt8) : Sib :=
  ⟨b.toBitVec.extractLsb' 6 2, b.toBitVec.extractLsb' 3 3, b.toBitVec.extractLsb' 0 3⟩

theorem Sib.ofByte_byte (s : Sib) : ofByte s.byte = s := by
  obtain ⟨scale, index, base⟩ := s
  revert scale index base
  decide +kernel

/-- What the bytes of a memory operand say. -/
structure AddressReading where
  reg : BitVec 3
  base : Option Register
  /-- The index register and what it is multiplied by. -/
  index : Option (Register × UInt8)
  /-- Whether the displacement counts from the next instruction. -/
  ripRelative : Bool
  /-- Width of the displacement that follows. -/
  displacement : Option DataSize
deriving DecidableEq, Repr

namespace AddressReading

/-- The general-purpose register of an address with this number. -/
def registerOf (size : DataSize) (extended : Bool) (low : BitVec 3) : Option Register :=
  Register.ofNumber? .general size (BitVec.ofBool extended ++ low) false

/-- Width of the displacement that ModRM.mod announces, where `full` is the wide one. -/
def displacementOf (mod : BitVec 2) (full : DataSize) : Option DataSize :=
  if mod = 0b01 then some .bit8 else if mod = 0b10 then some full else none

/-- The factor of SIB.scale. -/
def factorOf : BitVec 2 → UInt8
  | 0b00 => 1
  | 0b01 => 2
  | 0b10 => 4
  | _ => 8

/-- The base and the index of a 16-bit address. -/
def pairOf : BitVec 3 → Option Register × Option Register
  | 0b000 => (some .bx, some .si)
  | 0b001 => (some .bx, some .di)
  | 0b010 => (some .bp, some .si)
  | 0b011 => (some .bp, some .di)
  | 0b100 => (some .si, none)
  | 0b101 => (some .di, none)
  | 0b110 => (some .bp, none)
  | _ => (some .bx, none)

/-- A 16-bit address. The one of `bp` without a displacement is that of no register. -/
def of16 (m : ModRM) : AddressReading :=
  if m.mod = 0b00 ∧ m.rm = 0b110 then ⟨m.reg, none, none, false, some .bit16⟩
  else
    let (base, index) := pairOf m.rm
    ⟨m.reg, base, index.map (·, 1), false, displacementOf m.mod .bit16⟩

theorem of16_of_ne {m : ModRM} (h : ¬ (m.mod = 0b00 ∧ m.rm = 0b110)) :
    of16 m = ⟨m.reg, (pairOf m.rm).1, (pairOf m.rm).2.map (·, 1), false,
      displacementOf m.mod .bit16⟩ := if_neg h

/-- The index in SIB. The number of the stack pointer stands for none. -/
def indexOf (size : DataSize) (x : Bool) (s : Sib) : Option (Register × UInt8) :=
  if x = false ∧ s.index = 0b100 then none
  else (registerOf size x s.index).map (·, factorOf s.scale)

/-- An address with SIB. Base 101 without a displacement is none. -/
def ofSib (size : DataSize) (x b : Bool) (m : ModRM) (s : Sib) : AddressReading :=
  if m.mod = 0b00 ∧ s.base = 0b101 then ⟨m.reg, none, indexOf size x s, false, some .bit32⟩
  else ⟨m.reg, registerOf size b s.base, indexOf size x s, false, displacementOf m.mod .bit32⟩

theorem ofSib_of_ne {size : DataSize} {m : ModRM} {s : Sib} (x b : Bool)
    (h : ¬ (m.mod = 0b00 ∧ s.base = 0b101)) :
    ofSib size x b m s =
      ⟨m.reg, registerOf size b s.base, indexOf size x s, false, displacementOf m.mod .bit32⟩ :=
  if_neg h

/-- A 32- or 64-bit address without SIB. In 64-bit mode the one that has no base counts from the
next instruction. -/
def ofModRM (mode : Mode) (size : DataSize) (b : Bool) (m : ModRM) : AddressReading :=
  if m.mod = 0b00 ∧ m.rm = 0b101 then ⟨m.reg, none, none, mode = .bit64, some .bit32⟩
  else ⟨m.reg, registerOf size b m.rm, none, false, displacementOf m.mod .bit32⟩

theorem ofModRM_of_ne {mode : Mode} {size : DataSize} {m : ModRM} (b : Bool)
    (h : ¬ (m.mod = 0b00 ∧ m.rm = 0b101)) :
    ofModRM mode size b m =
      ⟨m.reg, registerOf size b m.rm, none, false, displacementOf m.mod .bit32⟩ := if_neg h

end AddressReading

/-- Reads the bytes of a memory operand whose address has the given size, where `x` and `b` are bits
of the REX prefix. Gives what follows them, too. -/
def readAddress (mode : Mode) (size : DataSize) (x b : Bool) :
    List UInt8 → Option (AddressReading × List UInt8)
  | [] => none
  | first :: rest =>
    let m := ModRM.ofByte first
    if m.mod = 0b11 then none
    else if size = .bit16 then some (.of16 m, rest)
    else if m.rm = 0b100 then
      match rest with
      | [] => none
      | second :: rest => some (.ofSib size x b m (Sib.ofByte second), rest)
    else some (.ofModRM mode size b m, rest)

section Reads

variable {mode : Mode} {size : DataSize} {mod : BitVec 2} {reg rm : BitVec 3}

theorem readAddress_of16 (hmod : mod ≠ 0b11) (x b : Bool) (rest : List UInt8) :
    readAddress mode .bit16 x b (ModRM.byte ⟨mod, reg, rm⟩ :: rest) =
      some (.of16 ⟨mod, reg, rm⟩, rest) := by
  simp only [readAddress, ModRM.ofByte_byte, hmod, if_false, if_true]

theorem readAddress_ofSib (hsize : size ≠ .bit16) (hmod : mod ≠ 0b11) (s : Sib) (x b : Bool)
    (rest : List UInt8) :
    readAddress mode size x b (ModRM.byte ⟨mod, reg, 0b100⟩ :: s.byte :: rest) =
      some (.ofSib size x b ⟨mod, reg, 0b100⟩ s, rest) := by
  simp only [readAddress, ModRM.ofByte_byte, Sib.ofByte_byte, hmod, hsize, if_false, if_true]

theorem readAddress_ofModRM (hsize : size ≠ .bit16) (hmod : mod ≠ 0b11) (hrm : rm ≠ 0b100)
    (x b : Bool) (rest : List UInt8) :
    readAddress mode size x b (ModRM.byte ⟨mod, reg, rm⟩ :: rest) =
      some (.ofModRM mode size b ⟨mod, reg, rm⟩, rest) := by
  simp only [readAddress, ModRM.ofByte_byte, hmod, hsize, hrm, if_false]

end Reads

end Assembler
