import Assembler.Opcode

/-!
# Opcodes that transfer control
-/

namespace Assembler

namespace OpcodeTable

open Form Slot

/-- Jumps, calls, loops, returns, interrupts and system calls. -/
def controlFlow : List Opcode :=
  [
    ⟨"jmp",
      [
        (of [0xE9] [rel .bit16]).op16.legacy,
        (of [0xE9] [rel .bit32]).op32.legacy,
        (of [0xE9] [rel .bit32]).op64.wide.long,
        of [0xEB] [rel .bit8],
        (of [0xFF] [rm .bit16]).op16.legacy.slash 4,
        (of [0xFF] [rm .bit32]).op32.legacy.slash 4,
        (of [0xFF] [rm .bit64]).op64.wide.long.slash 4
      ]⟩,
    ⟨"call",
      [
        (of [0xE8] [rel .bit16]).op16.legacy,
        (of [0xE8] [rel .bit32]).op32.legacy,
        (of [0xE8] [rel .bit32]).op64.wide.long,
        (of [0xFF] [rm .bit16]).op16.legacy.slash 2,
        (of [0xFF] [rm .bit32]).op32.legacy.slash 2,
        (of [0xFF] [rm .bit64]).op64.wide.long.slash 2
      ]⟩,
    ⟨"loop", [of [0xE2] [rel .bit8]]⟩,
    ⟨"loope", [of [0xE1] [rel .bit8]]⟩,
    ⟨"loopz", [of [0xE1] [rel .bit8]]⟩,
    ⟨"loopne", [of [0xE0] [rel .bit8]]⟩,
    ⟨"loopnz", [of [0xE0] [rel .bit8]]⟩,
    ⟨"jcxz", [(of [0xE3] [rel .bit8]).only16]⟩,
    ⟨"jecxz", [(of [0xE3] [rel .bit8]).only32]⟩,
    ⟨"jrcxz", [(of [0xE3] [rel .bit8]).long]⟩,
    ⟨"ret",
      [
        of [0xC3] [],
        of [0xC2] [imm .bit16]
      ]⟩,
    ⟨"retf",
      [
        of [0xCB] [],
        of [0xCA] [imm .bit16]
      ]⟩,
    ⟨"int", [of [0xCD] [imm .bit8]]⟩,
    ⟨"int3", [of [0xCC] []]⟩,
    ⟨"into", [(of [0xCE] []).legacy]⟩,
    ⟨"iret", [of [0xCF] []]⟩,
    ⟨"iretd", [(of [0xCF] []).op32]⟩,
    ⟨"iretq", [(of [0xCF] []).op64.long]⟩,
    ⟨"enter", [of [0xC8] [imm .bit16, imm .bit8]]⟩,
    ⟨"leave", [of [0xC9] []]⟩,
    ⟨"syscall", [(of [0x0F, 0x05] []).long]⟩,
    ⟨"sysret", [(of [0x0F, 0x07] []).long]⟩,
    ⟨"sysenter", [of [0x0F, 0x34] []]⟩,
    ⟨"sysexit", [of [0x0F, 0x35] []]⟩
  ]

end OpcodeTable

end Assembler
