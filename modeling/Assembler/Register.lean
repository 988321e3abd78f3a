import Assembler.DataSize

/-!
# Registers

The registers an operand or an address can name. `Register.info` is the register file as data: the
name, class, width and number of each. The number has four bits. The low three go into an
instruction byte; the fourth, where it is set, goes into a REX prefix.

Numbers 4 to 7 of the byte registers are shared: `ah`, `ch`, `dh`, `bh` are meant without a REX
prefix, `spl`, `bpl`, `sil`, `dil` with one.
-/

namespace Assembler

/-- What a register is for. -/
inductive RegisterClass
  | general
  | segment
  | control
  | debug
  | fpu
  | mmx
  | xmm
deriving DecidableEq, Repr

/-- A register. -/
inductive Register
  | al | cl | dl | bl | ah | ch | dh | bh | spl | bpl | sil | dil | r8b | r9b | r10b | r11b | r12b
  | r13b | r14b | r15b
  | ax | cx | dx | bx | sp | bp | si | di | r8w | r9w | r10w | r11w | r12w | r13w | r14w | r15w
  | eax | ecx | edx | ebx | esp | ebp | esi | edi | r8d | r9d | r10d | r11d | r12d | r13d | r14d
  | r15d
  | rax | rcx | rdx | rbx | rsp | rbp | rsi | rdi | r8 | r9 | r10 | r11 | r12 | r13 | r14 | r15
  | es | cs | ss | ds | fs | gs
  | cr0 | cr2 | cr3 | cr4 | cr8
  | dr0 | dr1 | dr2 | dr3 | dr6 | dr7
  | st0 | st1 | st2 | st3 | st4 | st5 | st6 | st7
  | mm0 | mm1 | mm2 | mm3 | mm4 | mm5 | mm6 | mm7
  | xmm0 | xmm1 | xmm2 | xmm3 | xmm4 | xmm5 | xmm6 | xmm7 | xmm8 | xmm9 | xmm10 | xmm11 | xmm12
  | xmm13 | xmm14 | xmm15
deriving DecidableEq, Repr

/-- What is known of a register. -/
structure RegisterInfo where
  name : String
  cls : RegisterClass
  size : DataSize
  number : BitVec 4

namespace Register

/-- Every register, in table order. -/
def all : List Register :=
  [
    .al, .cl, .dl, .bl, .ah, .ch, .dh, .bh, .spl, .bpl, .sil, .dil, .r8b, .r9b, .r10b, .r11b,
    .r12b, .r13b, .r14b, .r15b,
    .ax, .cx, .dx, .bx, .sp, .bp, .si, .di, .r8w, .r9w, .r10w, .r11w, .r12w, .r13w, .r14w, .r15w,
    .eax, .ecx, .edx, .ebx, .esp, .ebp, .esi, .edi, .r8d, .r9d, .r10d, .r11d, .r12d, .r13d, .r14d,
    .r15d,
    .rax, .rcx, .rdx, .rbx, .rsp, .rbp, .rsi, .rdi, .r8, .r9, .r10, .r11, .r12, .r13, .r14, .r15,
    .es, .cs, .ss, .ds, .fs, .gs,
    .cr0, .cr2, .cr3, .cr4, .cr8,
    .dr0, .dr1, .dr2, .dr3, .dr6, .dr7,
    .st0, .st1, .st2, .st3, .st4, .st5, .st6, .st7,
    .mm0, .mm1, .mm2, .mm3, .mm4, .mm5, .mm6, .mm7,
    .xmm0, .xmm1, .xmm2, .xmm3, .xmm4, .xmm5, .xmm6, .xmm7, .xmm8, .xmm9, .xmm10, .xmm11, .xmm12,
    .xmm13, .xmm14, .xmm15
  ]

/-- The register file. Control and debug registers follow the mode and have no width here. -/
def info : Register → RegisterInfo
  | .al => ⟨"AL", .general, .bit8, 0⟩
  | .cl => ⟨"CL", .general, .bit8, 1⟩
  | .dl => ⟨"DL", .general, .bit8, 2⟩
  | .bl => ⟨"BL", .general, .bit8, 3⟩
  | .ah => ⟨"AH", .general, .bit8, 4⟩
  | .ch => ⟨"CH", .general, .bit8, 5⟩
  | .dh => ⟨"DH", .general, .bit8, 6⟩
  | .bh => ⟨"BH", .general, .bit8, 7⟩
  | .spl => ⟨"SPL", .general, .bit8, 4⟩
  | .bpl => ⟨"BPL", .general, .bit8, 5⟩
  | .sil => ⟨"SIL", .general, .bit8, 6⟩
  | .dil => ⟨"DIL", .general, .bit8, 7⟩
  | .r8b => ⟨"R8B", .general, .bit8, 8⟩
  | .r9b => ⟨"R9B", .general, .bit8, 9⟩
  | .r10b => ⟨"R10B", .general, .bit8, 10⟩
  | .r11b => ⟨"R11B", .general, .bit8, 11⟩
  | .r12b => ⟨"R12B", .general, .bit8, 12⟩
  | .r13b => ⟨"R13B", .general, .bit8, 13⟩
  | .r14b => ⟨"R14B", .general, .bit8, 14⟩
  | .r15b => ⟨"R15B", .general, .bit8, 15⟩
  | .ax => ⟨"AX", .general, .bit16, 0⟩
  | .cx => ⟨"CX", .general, .bit16, 1⟩
  | .dx => ⟨"DX", .general, .bit16, 2⟩
  | .bx => ⟨"BX", .general, .bit16, 3⟩
  | .sp => ⟨"SP", .general, .bit16, 4⟩
  | .bp => ⟨"BP", .general, .bit16, 5⟩
  | .si => ⟨"SI", .general, .bit16, 6⟩
  | .di => ⟨"DI", .general, .bit16, 7⟩
  | .r8w => ⟨"R8W", .general, .bit16, 8⟩
  | .r9w => ⟨"R9W", .general, .bit16, 9⟩
  | .r10w => ⟨"R10W", .general, .bit16, 10⟩
  | .r11w => ⟨"R11W", .general, .bit16, 11⟩
  | .r12w => ⟨"R12W", .general, .bit16, 12⟩
  | .r13w => ⟨"R13W", .general, .bit16, 13⟩
  | .r14w => ⟨"R14W", .general, .bit16, 14⟩
  | .r15w => ⟨"R15W", .general, .bit16, 15⟩
  | .eax => ⟨"EAX", .general, .bit32, 0⟩
  | .ecx => ⟨"ECX", .general, .bit32, 1⟩
  | .edx => ⟨"EDX", .general, .bit32, 2⟩
  | .ebx => ⟨"EBX", .general, .bit32, 3⟩
  | .esp => ⟨"ESP", .general, .bit32, 4⟩
  | .ebp => ⟨"EBP", .general, .bit32, 5⟩
  | .esi => ⟨"ESI", .general, .bit32, 6⟩
  | .edi => ⟨"EDI", .general, .bit32, 7⟩
  | .r8d => ⟨"R8D", .general, .bit32, 8⟩
  | .r9d => ⟨"R9D", .general, .bit32, 9⟩
  | .r10d => ⟨"R10D", .general, .bit32, 10⟩
  | .r11d => ⟨"R11D", .general, .bit32, 11⟩
  | .r12d => ⟨"R12D", .general, .bit32, 12⟩
  | .r13d => ⟨"R13D", .general, .bit32, 13⟩
  | .r14d => ⟨"R14D", .general, .bit32, 14⟩
  | .r15d => ⟨"R15D", .general, .bit32, 15⟩
  | .rax => ⟨"RAX", .general, .bit64, 0⟩
  | .rcx => ⟨"RCX", .general, .bit64, 1⟩
  | .rdx => ⟨"RDX", .general, .bit64, 2⟩
  | .rbx => ⟨"RBX", .general, .bit64, 3⟩
  | .rsp => ⟨"RSP", .general, .bit64, 4⟩
  | .rbp => ⟨"RBP", .general, .bit64, 5⟩
  | .rsi => ⟨"RSI", .general, .bit64, 6⟩
  | .rdi => ⟨"RDI", .general, .bit64, 7⟩
  | .r8 => ⟨"R8", .general, .bit64, 8⟩
  | .r9 => ⟨"R9", .general, .bit64, 9⟩
  | .r10 => ⟨"R10", .general, .bit64, 10⟩
  | .r11 => ⟨"R11", .general, .bit64, 11⟩
  | .r12 => ⟨"R12", .general, .bit64, 12⟩
  | .r13 => ⟨"R13", .general, .bit64, 13⟩
  | .r14 => ⟨"R14", .general, .bit64, 14⟩
  | .r15 => ⟨"R15", .general, .bit64, 15⟩
  | .es => ⟨"ES", .segment, .bit16, 0⟩
  | .cs => ⟨"CS", .segment, .bit16, 1⟩
  | .ss => ⟨"SS", .segment, .bit16, 2⟩
  | .ds => ⟨"DS", .segment, .bit16, 3⟩
  | .fs => ⟨"FS", .segment, .bit16, 4⟩
  | .gs => ⟨"GS", .segment, .bit16, 5⟩
  | .cr0 => ⟨"CR0", .control, .unsized, 0⟩
  | .cr2 => ⟨"CR2", .control, .unsized, 2⟩
  | .cr3 => ⟨"CR3", .control, .unsized, 3⟩
  | .cr4 => ⟨"CR4", .control, .unsized, 4⟩
  | .cr8 => ⟨"CR8", .control, .unsized, 8⟩
  | .dr0 => ⟨"DR0", .debug, .unsized, 0⟩
  | .dr1 => ⟨"DR1", .debug, .unsized, 1⟩
  | .dr2 => ⟨"DR2", .debug, .unsized, 2⟩
  | .dr3 => ⟨"DR3", .debug, .unsized, 3⟩
  | .dr6 => ⟨"DR6", .debug, .unsized, 6⟩
  | .dr7 => ⟨"DR7", .debug, .unsized, 7⟩
  | .st0 => ⟨"ST0", .fpu, .bit80, 0⟩
  | .st1 => ⟨"ST1", .fpu, .bit80, 1⟩
  | .st2 => ⟨"ST2", .fpu, .bit80, 2⟩
  | .st3 => ⟨"ST3", .fpu, .bit80, 3⟩
  | .st4 => ⟨"ST4", .fpu, .bit80, 4⟩
  | .st5 => ⟨"ST5", .fpu, .bit80, 5⟩
  | .st6 => ⟨"ST6", .fpu, .bit80, 6⟩
  | .st7 => ⟨"ST7", .fpu, .bit80, 7⟩
  | .mm0 => ⟨"MM0", .mmx, .bit64, 0⟩
  | .mm1 => ⟨"MM1", .mmx, .bit64, 1⟩
  | .mm2 => ⟨"MM2", .mmx, .bit64, 2⟩
  | .mm3 => ⟨"MM3", .mmx, .bit64, 3⟩
  | .mm4 => ⟨"MM4", .mmx, .bit64, 4⟩
  | .mm5 => ⟨"MM5", .mmx, .bit64, 5⟩
  | .mm6 => ⟨"MM6", .mmx, .bit64, 6⟩
  | .mm7 => ⟨"MM7", .mmx, .bit64, 7⟩
  | .xmm0 => ⟨"XMM0", .xmm, .bit128, 0⟩
  | .xmm1 => ⟨"XMM1", .xmm, .bit128, 1⟩
  | .xmm2 => ⟨"XMM2", .xmm, .bit128, 2⟩
  | .xmm3 => ⟨"XMM3", .xmm, .bit128, 3⟩
  | .xmm4 => ⟨"XMM4", .xmm, .bit128, 4⟩
  | .xmm5 => ⟨"XMM5", .xmm, .bit128, 5⟩
  | .xmm6 => ⟨"XMM6", .xmm, .bit128, 6⟩
  | .xmm7 => ⟨"XMM7", .xmm, .bit128, 7⟩
  | .xmm8 => ⟨"XMM8", .xmm, .bit128, 8⟩
  | .xmm9 => ⟨"XMM9", .xmm, .bit128, 9⟩
  | .xmm10 => ⟨"XMM10", .xmm, .bit128, 10⟩
  | .xmm11 => ⟨"XMM11", .xmm, .bit128, 11⟩
  | .xmm12 => ⟨"XMM12", .xmm, .bit128, 12⟩
  | .xmm13 => ⟨"XMM13", .xmm, .bit128, 13⟩
  | .xmm14 => ⟨"XMM14", .xmm, .bit128, 14⟩
  | .xmm15 => ⟨"XMM15", .xmm, .bit128, 15⟩

/-- Name in upper case. -/
def name (r : Register) : String := r.info.name

/-- What the register is for. -/
def cls (r : Register) : RegisterClass := r.info.cls

/-- Width of the register. -/
def size (r : Register) : DataSize := r.info.size

/-- Number of the register in its class. -/
def number (r : Register) : BitVec 4 := r.info.number

/-- The bits of the number that go into an instruction byte. -/
def low (r : Register) : BitVec 3 := r.number.setWidth 3

/-- Whether the number needs a bit of a REX prefix. -/
def isExtended (r : Register) : Bool := r.number.msb

/-- Whether the register is the second byte of a wider one, out of reach with a REX prefix. -/
def isHighByte : Register → Bool
  | .ah => true
  | .ch => true
  | .dh => true
  | .bh => true
  | _ => false

/-- Whether the register is a low byte that only a REX prefix, even an empty one, selects. -/
def isUniformByte : Register → Bool
  | .spl => true
  | .bpl => true
  | .sil => true
  | .dil => true
  | _ => false

/-- Whether the register can be named with a REX prefix only. -/
def requiresRex (r : Register) : Bool := r.isExtended || r.isUniformByte

/-- Whether the register is a general-purpose one. -/
def isGeneral (r : Register) : Bool := r.cls = .general

/-- The register of this name, in any case. -/
def ofName? (name : String) : Option Register :=
  all.find? fun r => r.name.toLower == name.toLower

/-- The byte that makes this register the segment of a memory operand. -/
def segmentOverride? : Register → Option UInt8
  | .es => some 0x26
  | .cs => some 0x2E
  | .ss => some 0x36
  | .ds => some 0x3E
  | .fs => some 0x64
  | .gs => some 0x65
  | _ => none

/-- The register as it is written in an operand. -/
def text (r : Register) : String := r.name.toLower

theorem mem_all (r : Register) : r ∈ all := by
  cases r <;> decide

end Register

end Assembler
