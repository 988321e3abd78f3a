import Assembler.Register

/-!
# Bytes with fields

The three bytes of an instruction that are split into fields: the REX prefix of 64-bit mode, ModRM,
and SIB. Each is a structure of its fields with the byte that it is written as.
-/

namespace Assembler

/-- The extension bits of a REX prefix. -/
structure Rex where
  /-- 64-bit operand size. -/
  w : Bool
  /-- Extends ModRM.reg. -/
  r : Bool
  /-- Extends SIB.index. -/
  x : Bool
  /-- Extends ModRM.rm, SIB.base or the register in the opcode. -/
  b : Bool
deriving DecidableEq, Repr

namespace Rex

/-- No extension. -/
def empty : Rex := ⟨false, false, false, false⟩

/-- The extensions of either. -/
def union (p q : Rex) : Rex := ⟨p.w || q.w, p.r || q.r, p.x || q.x, p.b || q.b⟩

/-- The set with the given bits, `b` being the lowest. -/
def ofBits (bits : BitVec 4) : Rex := ⟨bits[3], bits[2], bits[1], bits[0]⟩

/-- The bits of the set, `b` being the lowest. -/
def bits (rex : Rex) : BitVec 4 :=
  BitVec.ofBool rex.w ++ BitVec.ofBool rex.r ++ BitVec.ofBool rex.x ++ BitVec.ofBool rex.b

/-- The byte of the instruction. -/
def byte (rex : Rex) : UInt8 := ⟨0x4#4 ++ rex.bits⟩

end Rex

/-- The operand byte: `reg` names a register or extends the opcode, `mod` and `rm` name a register
or say how an address is formed. -/
structure ModRM where
  mod : BitVec 2
  reg : BitVec 3
  rm : BitVec 3
deriving DecidableEq, Repr

/-- The byte of the instruction. -/
def ModRM.byte (m : ModRM) : UInt8 := ⟨m.mod ++ m.reg ++ m.rm⟩

/-- The byte after ModRM that forms an address from two registers. -/
structure Sib where
  scale : BitVec 2
  index : BitVec 3
  base : BitVec 3
deriving DecidableEq, Repr

/-- The byte of the instruction. -/
def Sib.byte (s : Sib) : UInt8 := ⟨s.scale ++ s.index ++ s.base⟩

end Assembler
