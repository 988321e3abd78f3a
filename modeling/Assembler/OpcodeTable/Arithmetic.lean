import Assembler.Opcode

/-!
# Opcodes that compute
-/

namespace Assembler

namespace OpcodeTable

open Form Slot

/-- Two-operand arithmetic, laid out around a base opcode. -/
def binaryOp (name : String) (base : UInt8) (digit : BitVec 3) : Opcode where
  mnemonic := name
  forms :=
    [
      (of [base + 4] [fixed .al, imm .bit8]).op8,
      (of [0x83] [rm .bit16, imm .bit8]).op16.sext.slash digit,
      (of [0x83] [rm .bit32, imm .bit8]).op32.sext.slash digit,
      (of [0x83] [rm .bit64, imm .bit8]).op64.sext.long.slash digit,
      (of [base + 5] [fixed .ax, imm .bit16]).op16,
      (of [base + 5] [fixed .eax, imm .bit32]).op32,
      (of [base + 5] [fixed .rax, imm .bit32]).op64.sext.long,
      (of [0x80] [rm .bit8, imm .bit8]).op8.slash digit,
      (of [0x81] [rm .bit16, imm .bit16]).op16.slash digit,
      (of [0x81] [rm .bit32, imm .bit32]).op32.slash digit,
      (of [0x81] [rm .bit64, imm .bit32]).op64.sext.long.slash digit,
      (of [base] [rm .bit8, reg .bit8]).op8,
      (of [base + 1] [rm .bit16, reg .bit16]).op16,
      (of [base + 1] [rm .bit32, reg .bit32]).op32,
      (of [base + 1] [rm .bit64, reg .bit64]).op64.long,
      (of [base + 2] [reg .bit8, rm .bit8]).op8,
      (of [base + 3] [reg .bit16, rm .bit16]).op16,
      (of [base + 3] [reg .bit32, rm .bit32]).op32,
      (of [base + 3] [reg .bit64, rm .bit64]).op64.long
    ]

/-- One-operand arithmetic, told apart by an opcode extension. -/
def unaryOp (name : String) (digit : BitVec 3) : Opcode where
  mnemonic := name
  forms :=
    [
      (of [0xF6] [rm .bit8]).op8.slash digit,
      (of [0xF7] [rm .bit16]).op16.slash digit,
      (of [0xF7] [rm .bit32]).op32.slash digit,
      (of [0xF7] [rm .bit64]).op64.long.slash digit
    ]

/-- Shifts and rotations, told apart by an opcode extension. -/
def shift (name : String) (digit : BitVec 3) : Opcode where
  mnemonic := name
  forms :=
    [
      (of [0xD2] [rm .bit8, fixed .cl]).op8.slash digit,
      (of [0xD3] [rm .bit16, fixed .cl]).op16.slash digit,
      (of [0xD3] [rm .bit32, fixed .cl]).op32.slash digit,
      (of [0xD3] [rm .bit64, fixed .cl]).op64.long.slash digit,
      (of [0xC0] [rm .bit8, imm .bit8]).op8.slash digit,
      (of [0xC1] [rm .bit16, imm .bit8]).op16.slash digit,
      (of [0xC1] [rm .bit32, imm .bit8]).op32.slash digit,
      (of [0xC1] [rm .bit64, imm .bit8]).op64.long.slash digit
    ]

/-- Arithmetic, logic, shifts and rotations. -/
def arithmetic : List Opcode :=
  [
    binaryOp "add" 0x00 0,
    binaryOp "or" 0x08 1,
    binaryOp "adc" 0x10 2,
    binaryOp "sbb" 0x18 3,
    binaryOp "and" 0x20 4,
    binaryOp "sub" 0x28 5,
    binaryOp "xor" 0x30 6,
    binaryOp "cmp" 0x38 7,
    ⟨"test",
      [
        (of [0xA8] [fixed .al, imm .bit8]).op8,
        (of [0xA9] [fixed .ax, imm .bit16]).op16,
        (of [0xA9] [fixed .eax, imm .bit32]).op32,
        (of [0xA9] [fixed .rax, imm .bit32]).op64.sext.long,
        (of [0xF6] [rm .bit8, imm .bit8]).op8.slash 0,
        (of [0xF7] [rm .bit16, imm .bit16]).op16.slash 0,
        (of [0xF7] [rm .bit32, imm .bit32]).op32.slash 0,
        (of [0xF7] [rm .bit64, imm .bit32]).op64.sext.long.slash 0,
        (of [0x84] [rm .bit8, reg .bit8]).op8,
        (of [0x85] [rm .bit16, reg .bit16]).op16,
        (of [0x85] [rm .bit32, reg .bit32]).op32,
        (of [0x85] [rm .bit64, reg .bit64]).op64.long
      ]⟩,
    ⟨"inc",
      [
        (of [0x40] [opreg .bit16]).op16.legacy,
        (of [0x40] [opreg .bit32]).op32.legacy,
        (of [0xFE] [rm .bit8]).op8.slash 0,
        (of [0xFF] [rm .bit16]).op16.slash 0,
        (of [0xFF] [rm .bit32]).op32.slash 0,
        (of [0xFF] [rm .bit64]).op64.long.slash 0
      ]⟩,
    ⟨"dec",
      [
        (of [0x48] [opreg .bit16]).op16.legacy,
        (of [0x48] [opreg .bit32]).op32.legacy,
        (of [0xFE] [rm .bit8]).op8.slash 1,
        (of [0xFF] [rm .bit16]).op16.slash 1,
        (of [0xFF] [rm .bit32]).op32.slash 1,
        (of [0xFF] [rm .bit64]).op64.long.slash 1
      ]⟩,
    unaryOp "not" 2,
    unaryOp "neg" 3,
    unaryOp "mul" 4,
    unaryOp "div" 6,
    unaryOp "idiv" 7,
    ⟨"imul",
      [
        (of [0xF6] [rm .bit8]).op8.slash 5,
        (of [0xF7] [rm .bit16]).op16.slash 5,
        (of [0xF7] [rm .bit32]).op32.slash 5,
        (of [0xF7] [rm .bit64]).op64.long.slash 5,
        (of [0x0F, 0xAF] [reg .bit16, rm .bit16]).op16,
        (of [0x0F, 0xAF] [reg .bit32, rm .bit32]).op32,
        (of [0x0F, 0xAF] [reg .bit64, rm .bit64]).op64.long,
        (of [0x6B] [reg .bit16, rm .bit16, imm .bit8]).op16.sext,
        (of [0x6B] [reg .bit32, rm .bit32, imm .bit8]).op32.sext,
        (of [0x6B] [reg .bit64, rm .bit64, imm .bit8]).op64.sext.long,
        (of [0x69] [reg .bit16, rm .bit16, imm .bit16]).op16,
        (of [0x69] [reg .bit32, rm .bit32, imm .bit32]).op32,
        (of [0x69] [reg .bit64, rm .bit64, imm .bit32]).op64.sext.long
      ]⟩,
    shift "rol" 0,
    shift "ror" 1,
    shift "rcl" 2,
    shift "rcr" 3,
    shift "shl" 4,
    shift "sal" 4,
    shift "shr" 5,
    shift "sar" 7
  ]

end OpcodeTable

end Assembler
