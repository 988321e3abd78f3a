import Assembler.Opcode

/-!
# Opcodes for strings
-/

namespace Assembler

namespace OpcodeTable

open Form Slot

/-- A string operation on bytes, words, doublewords and quadwords. -/
def stringOp (stem : String) (op : UInt8) : List Opcode :=
  [
    ⟨stem ++ "b", [(of [op] []).op8]⟩,
    ⟨stem ++ "w", [(of [op + 1] []).op16]⟩,
    ⟨stem ++ "d", [(of [op + 1] []).op32]⟩,
    ⟨stem ++ "q", [(of [op + 1] []).op64.long]⟩
  ]

/-- String operations, and what repeats or locks the next instruction. -/
def stringMovement : List Opcode :=
  stringOp "movs" 0xA4 ++ stringOp "cmps" 0xA6 ++ stringOp "stos" 0xAA
    ++ stringOp "lods" 0xAC ++ stringOp "scas" 0xAE ++
  [
    ⟨"insb", [(of [0x6C] []).op8]⟩,
    ⟨"insw", [(of [0x6D] []).op16]⟩,
    ⟨"insd", [(of [0x6D] []).op32]⟩,
    ⟨"outsb", [(of [0x6E] []).op8]⟩,
    ⟨"outsw", [(of [0x6F] []).op16]⟩,
    ⟨"outsd", [(of [0x6F] []).op32]⟩,
    ⟨"rep", [of [0xF3] []]⟩,
    ⟨"repe", [of [0xF3] []]⟩,
    ⟨"repz", [of [0xF3] []]⟩,
    ⟨"repne", [of [0xF2] []]⟩,
    ⟨"repnz", [of [0xF2] []]⟩,
    ⟨"lock", [of [0xF0] []]⟩
  ]

end OpcodeTable

end Assembler
