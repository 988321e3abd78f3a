import Assembler.Opcode

/-!
# Opcodes that depend on a condition
-/

namespace Assembler

namespace OpcodeTable

open Form Slot

/-- Every condition by the suffix of its mnemonics, with its code. Some have several names. -/
def conditions : List (String × UInt8) :=
  [
    ("o", 0x0), ("no", 0x1), ("b", 0x2), ("c", 0x2), ("nae", 0x2), ("ae", 0x3), ("nb", 0x3),
    ("nc", 0x3), ("e", 0x4), ("z", 0x4), ("ne", 0x5), ("nz", 0x5), ("be", 0x6), ("na", 0x6),
    ("a", 0x7), ("nbe", 0x7), ("s", 0x8), ("ns", 0x9), ("p", 0xA), ("pe", 0xA), ("np", 0xB),
    ("po", 0xB), ("l", 0xC), ("nge", 0xC), ("ge", 0xD), ("nl", 0xD), ("le", 0xE), ("ng", 0xE),
    ("g", 0xF), ("nle", 0xF)
  ]

/-- A jump on a condition. Its one-byte distance is for those who ask for it. -/
def jump (name : String) (cc : UInt8) : Opcode where
  mnemonic := name
  forms :=
    [
      (of [0x0F, 0x80 + cc] [rel .bit16]).op16.legacy,
      (of [0x0F, 0x80 + cc] [rel .bit32]).op32.legacy,
      (of [0x0F, 0x80 + cc] [rel .bit32]).op64.wide.long,
      of [0x70 + cc] [rel .bit8]
    ]

/-- A byte set to a condition. -/
def setByte (name : String) (cc : UInt8) : Opcode where
  mnemonic := name
  forms :=
    [
      (of [0x0F, 0x90 + cc] [rm .bit8]).op8.slash 0
    ]

/-- A move on a condition. -/
def conditionalMove (name : String) (cc : UInt8) : Opcode where
  mnemonic := name
  forms :=
    [
      (of [0x0F, 0x40 + cc] [reg .bit16, rm .bit16]).op16,
      (of [0x0F, 0x40 + cc] [reg .bit32, rm .bit32]).op32,
      (of [0x0F, 0x40 + cc] [reg .bit64, rm .bit64]).op64.long
    ]

/-- Jumps, set bytes and moves for every condition. -/
def conditional : List Opcode :=
  conditions.map (fun (suffix, cc) => jump ("j" ++ suffix) cc)
    ++ conditions.map (fun (suffix, cc) => setByte ("set" ++ suffix) cc)
    ++ conditions.map (fun (suffix, cc) => conditionalMove ("cmov" ++ suffix) cc)

end OpcodeTable

end Assembler
