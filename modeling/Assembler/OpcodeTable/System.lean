import Assembler.Opcode

/-!
# Opcodes without operands
-/

namespace Assembler

namespace OpcodeTable

open Form Slot

/-- Flags, conversions and processor control. -/
def system : List Opcode :=
  [
    ⟨"nop", [of [0x90] []]⟩,
    ⟨"pause", [of [0xF3, 0x90] []]⟩,
    ⟨"hlt", [of [0xF4] []]⟩,
    ⟨"wait", [of [0x9B] []]⟩,
    ⟨"cpuid", [of [0x0F, 0xA2] []]⟩,
    ⟨"rdtsc", [of [0x0F, 0x31] []]⟩,
    ⟨"ud2", [of [0x0F, 0x0B] []]⟩,
    ⟨"clc", [of [0xF8] []]⟩,
    ⟨"stc", [of [0xF9] []]⟩,
    ⟨"cmc", [of [0xF5] []]⟩,
    ⟨"cld", [of [0xFC] []]⟩,
    ⟨"std", [of [0xFD] []]⟩,
    ⟨"cli", [of [0xFA] []]⟩,
    ⟨"sti", [of [0xFB] []]⟩,
    ⟨"lahf", [of [0x9F] []]⟩,
    ⟨"sahf", [of [0x9E] []]⟩,
    ⟨"xlatb", [of [0xD7] []]⟩,
    ⟨"pushf", [of [0x9C] []]⟩,
    ⟨"pushfd", [(of [0x9C] []).op32.legacy]⟩,
    ⟨"pushfq", [(of [0x9C] []).long]⟩,
    ⟨"popf", [of [0x9D] []]⟩,
    ⟨"popfd", [(of [0x9D] []).op32.legacy]⟩,
    ⟨"popfq", [(of [0x9D] []).long]⟩,
    ⟨"pusha", [(of [0x60] []).legacy]⟩,
    ⟨"pushad", [(of [0x60] []).op32.legacy]⟩,
    ⟨"popa", [(of [0x61] []).legacy]⟩,
    ⟨"popad", [(of [0x61] []).op32.legacy]⟩,
    ⟨"cbw", [(of [0x98] []).op16]⟩,
    ⟨"cwde", [(of [0x98] []).op32]⟩,
    ⟨"cdqe", [(of [0x98] []).op64.long]⟩,
    ⟨"cwd", [(of [0x99] []).op16]⟩,
    ⟨"cdq", [(of [0x99] []).op32]⟩,
    ⟨"cqo", [(of [0x99] []).op64.long]⟩
  ]

end OpcodeTable

end Assembler
