import Assembler.Opcode

/-!
# Opcodes that move data
-/

namespace Assembler

namespace OpcodeTable

open Form Slot

/-- Moves, exchanges, the stack, input and output. -/
def dataMovement : List Opcode :=
  [
    ⟨"mov",
      [
        (of [0x88] [rm .bit8, reg .bit8]).op8,
        (of [0x89] [rm .bit16, reg .bit16]).op16,
        (of [0x89] [rm .bit32, reg .bit32]).op32,
        (of [0x89] [rm .bit64, reg .bit64]).op64.long,
        (of [0x8A] [reg .bit8, rm .bit8]).op8,
        (of [0x8B] [reg .bit16, rm .bit16]).op16,
        (of [0x8B] [reg .bit32, rm .bit32]).op32,
        (of [0x8B] [reg .bit64, rm .bit64]).op64.long,
        (of [0x8C] [rm .bit16, sreg]).op16,
        (of [0x8C] [regRm .bit32, sreg]).op32,
        (of [0x8C] [regRm .bit64, sreg]).op64.long,
        of [0x8E] [sreg, rm .bit16],
        of [0x8E] [sreg, regRm .bit32],
        (of [0x8E] [sreg, regRm .bit64]).long,
        (of [0xA0] [fixed .al, moffs .bit8]).op8,
        (of [0xA1] [fixed .ax, moffs .bit16]).op16,
        (of [0xA1] [fixed .eax, moffs .bit32]).op32,
        (of [0xA1] [fixed .rax, moffs .bit64]).op64.long,
        (of [0xA2] [moffs .bit8, fixed .al]).op8,
        (of [0xA3] [moffs .bit16, fixed .ax]).op16,
        (of [0xA3] [moffs .bit32, fixed .eax]).op32,
        (of [0xA3] [moffs .bit64, fixed .rax]).op64.long,
        (of [0xB0] [opreg .bit8, imm .bit8]).op8,
        (of [0xB8] [opreg .bit16, imm .bit16]).op16,
        (of [0xB8] [opreg .bit32, imm .bit32]).op32,
        (of [0xC7] [rm .bit64, imm .bit32]).op64.sext.known.long.slash 0,
        (of [0xB8] [opreg .bit64, imm .bit64]).op64.long,
        (of [0xC7] [rm .bit64, imm .bit32]).op64.sext.long.slash 0,
        (of [0xC6] [rm .bit8, imm .bit8]).op8.slash 0,
        (of [0xC7] [rm .bit16, imm .bit16]).op16.slash 0,
        (of [0xC7] [rm .bit32, imm .bit32]).op32.slash 0,
        (of [0x0F, 0x20] [regRm .bit32, special .control]).legacy,
        (of [0x0F, 0x20] [regRm .bit64, special .control]).long,
        (of [0x0F, 0x22] [special .control, regRm .bit32]).legacy,
        (of [0x0F, 0x22] [special .control, regRm .bit64]).long,
        (of [0x0F, 0x21] [regRm .bit32, special .debug]).legacy,
        (of [0x0F, 0x21] [regRm .bit64, special .debug]).long,
        (of [0x0F, 0x23] [special .debug, regRm .bit32]).legacy,
        (of [0x0F, 0x23] [special .debug, regRm .bit64]).long
      ]⟩,
    ⟨"movzx",
      [
        (of [0x0F, 0xB6] [reg .bit16, rm .bit8]).op16,
        (of [0x0F, 0xB6] [reg .bit32, rm .bit8]).op32,
        (of [0x0F, 0xB6] [reg .bit64, rm .bit8]).op64.long,
        (of [0x0F, 0xB7] [reg .bit32, rm .bit16]).op32,
        (of [0x0F, 0xB7] [reg .bit64, rm .bit16]).op64.long
      ]⟩,
    ⟨"movsx",
      [
        (of [0x0F, 0xBE] [reg .bit16, rm .bit8]).op16,
        (of [0x0F, 0xBE] [reg .bit32, rm .bit8]).op32,
        (of [0x0F, 0xBE] [reg .bit64, rm .bit8]).op64.long,
        (of [0x0F, 0xBF] [reg .bit32, rm .bit16]).op32,
        (of [0x0F, 0xBF] [reg .bit64, rm .bit16]).op64.long
      ]⟩,
    ⟨"movsxd", [(of [0x63] [reg .bit64, rm .bit32]).op64.long]⟩,
    ⟨"lea",
      [
        (of [0x8D] [reg .bit16, mem]).op16,
        (of [0x8D] [reg .bit32, mem]).op32,
        (of [0x8D] [reg .bit64, mem]).op64.long
      ]⟩,
    ⟨"xchg",
      [
        (of [0x90] [fixed .ax, opreg .bit16]).op16,
        (of [0x90] [opreg .bit16, fixed .ax]).op16,
        (of [0x90] [fixed .eax, opreg .bit32]).op32,
        (of [0x90] [opreg .bit32, fixed .eax]).op32,
        (of [0x90] [fixed .rax, opreg .bit64]).op64.long,
        (of [0x90] [opreg .bit64, fixed .rax]).op64.long,
        (of [0x86] [rm .bit8, reg .bit8]).op8,
        (of [0x86] [reg .bit8, rm .bit8]).op8,
        (of [0x87] [rm .bit16, reg .bit16]).op16,
        (of [0x87] [reg .bit16, rm .bit16]).op16,
        (of [0x87] [rm .bit32, reg .bit32]).op32,
        (of [0x87] [reg .bit32, rm .bit32]).op32,
        (of [0x87] [rm .bit64, reg .bit64]).op64.long,
        (of [0x87] [reg .bit64, rm .bit64]).op64.long
      ]⟩,
    ⟨"push",
      [
        (of [0x50] [opreg .bit16]).op16,
        (of [0x50] [opreg .bit32]).op32.legacy,
        (of [0x50] [opreg .bit64]).op64.wide.long,
        (of [0x6A] [imm .bit8]).op16.sext.only16,
        (of [0x6A] [imm .bit8]).op32.sext.legacy,
        (of [0x6A] [imm .bit8]).op64.sext.wide.long,
        (of [0x68] [imm .bit16]).op16,
        (of [0x68] [imm .bit32]).op32.legacy,
        (of [0x68] [imm .bit32]).op64.sext.wide.long,
        (of [0xFF] [rm .bit16]).op16.slash 6,
        (of [0xFF] [rm .bit32]).op32.legacy.slash 6,
        (of [0xFF] [rm .bit64]).op64.wide.long.slash 6,
        (of [0x06] [fixed .es]).legacy,
        (of [0x0E] [fixed .cs]).legacy,
        (of [0x16] [fixed .ss]).legacy,
        (of [0x1E] [fixed .ds]).legacy,
        of [0x0F, 0xA0] [fixed .fs],
        of [0x0F, 0xA8] [fixed .gs]
      ]⟩,
    ⟨"pop",
      [
        (of [0x58] [opreg .bit16]).op16,
        (of [0x58] [opreg .bit32]).op32.legacy,
        (of [0x58] [opreg .bit64]).op64.wide.long,
        (of [0x8F] [rm .bit16]).op16.slash 0,
        (of [0x8F] [rm .bit32]).op32.legacy.slash 0,
        (of [0x8F] [rm .bit64]).op64.wide.long.slash 0,
        (of [0x07] [fixed .es]).legacy,
        (of [0x17] [fixed .ss]).legacy,
        (of [0x1F] [fixed .ds]).legacy,
        of [0x0F, 0xA1] [fixed .fs],
        of [0x0F, 0xA9] [fixed .gs]
      ]⟩,
    ⟨"bswap",
      [
        (of [0x0F, 0xC8] [opreg .bit32]).op32,
        (of [0x0F, 0xC8] [opreg .bit64]).op64.long
      ]⟩,
    ⟨"in",
      [
        (of [0xE4] [fixed .al, imm .bit8]).op8,
        (of [0xE5] [fixed .ax, imm .bit8]).op16,
        (of [0xE5] [fixed .eax, imm .bit8]).op32,
        (of [0xEC] [fixed .al, fixed .dx]).op8,
        (of [0xED] [fixed .ax, fixed .dx]).op16,
        (of [0xED] [fixed .eax, fixed .dx]).op32
      ]⟩,
    ⟨"out",
      [
        (of [0xE6] [imm .bit8, fixed .al]).op8,
        (of [0xE7] [imm .bit8, fixed .ax]).op16,
        (of [0xE7] [imm .bit8, fixed .eax]).op32,
        (of [0xEE] [fixed .dx, fixed .al]).op8,
        (of [0xEF] [fixed .dx, fixed .ax]).op16,
        (of [0xEF] [fixed .dx, fixed .eax]).op32
      ]⟩
  ]

end OpcodeTable

end Assembler
