import Assembler.Form.Encode
import Assembler.OpcodeTable

/-!
# Reading an instruction back

How a processor reads the fixed bytes of an instruction, when it is known which form they are of:
overrides in any order, in 64-bit mode perhaps a REX prefix right before the opcode, the opcode, and
ModRM if the form has one. `Reading.IsOf` is that grammar, and `read` a reader for it.

A form is `Readable` when its opcode cannot be taken for an override or a REX prefix, and each of
its register slots has a place of its own. Then `read` finds the only reading there is
(`Reading.IsOf.read_eq`).

`Reading.segments`, `Reading.operandSize`, `Reading.addressSize` and `Reading.registerAt?` say what
the bytes mean.
-/

namespace Assembler

/-! ## Bytes -/

/-- The extension bits of a byte, if it is a REX prefix. -/
def Rex.ofByte? (b : UInt8) : Option Rex :=
  if b &&& 0xF0 = 0x40 then some (Rex.ofBits (b.toBitVec.setWidth 4)) else none

/-- The fields of a ModRM byte. -/
def ModRM.ofByte (b : UInt8) : ModRM :=
  ⟨b.toBitVec.extractLsb' 6 2, b.toBitVec.extractLsb' 3 3, b.toBitVec.extractLsb' 0 3⟩

/-- Overrides of the segment, of the operand size and of the address size. -/
def overrideBytes : List UInt8 := [0x26, 0x2E, 0x36, 0x3E, 0x64, 0x65, 0x66, 0x67]

/-- Whether a byte is an override. -/
def isOverride (b : UInt8) : Bool := b ∈ overrideBytes

/-- The segment that a byte selects. -/
def segmentOf? (b : UInt8) : Option Register :=
  if b = 0x26 then some .es
  else if b = 0x2E then some .cs
  else if b = 0x36 then some .ss
  else if b = 0x3E then some .ds
  else if b = 0x64 then some .fs
  else if b = 0x65 then some .gs
  else none

/-- The bytes of REX prefixes. -/
def Rex.allBytes : List UInt8 := (List.range 16).map fun n => 0x40 + UInt8.ofNat n

theorem Rex.byte_mem_allBytes (rex : Rex) : rex.byte ∈ allBytes := by
  obtain ⟨w, r, x, b⟩ := rex
  revert w r x b
  decide

theorem Rex.ofByte?_byte (rex : Rex) : ofByte? rex.byte = some rex := by
  obtain ⟨w, r, x, b⟩ := rex
  revert w r x b
  decide

theorem Rex.not_isOverride_byte (rex : Rex) : isOverride rex.byte = false := by
  obtain ⟨w, r, x, b⟩ := rex
  revert w r x b
  decide

theorem ModRM.ofByte_byte (m : ModRM) : ofByte m.byte = m := by
  obtain ⟨mod, reg, rm⟩ := m
  revert mod reg rm
  decide +kernel

/-! ## The grammar -/

/-- Whether a slot names a register or memory in ModRM.rm. -/
def Slot.isRm (s : Slot) : Bool :=
  s.placement = .standard &&
    match s.shape with
    | .register _ _ => true
    | .registerOrMemory _ _ => true
    | .memory _ => true
    | _ => false

namespace Form

/-- Whether the form has a ModRM byte. -/
def usesModRM (f : Form) : Bool :=
  f.digit.isSome || f.slots.any (·.placement = .reg) || f.slots.any Slot.isRm

/-- The bits of the last byte of the opcode that are fixed. A register in the opcode takes three. -/
def opcodeMask (f : Form) : UInt8 := if f.slots.any (·.placement = .opcode) then 0xF8 else 0xFF

/-- Whether bytes are an opcode, of whose last byte the bits of a mask count. -/
def matchesOpcode (mask : UInt8) : List UInt8 → List UInt8 → Bool
  | [o], [b] => b &&& mask = o &&& mask
  | o :: opcode, b :: bytes => b = o && matchesOpcode mask opcode bytes
  | _, _ => false

/-- Whether bytes are the opcode of the form. -/
def readsOpcode (f : Form) (bytes : List UInt8) : Bool := matchesOpcode f.opcodeMask f.opcode bytes

end Form

/-- The fixed bytes of an instruction, taken apart. -/
structure Reading where
  overrides : List UInt8
  rex : Option Rex
  opcode : List UInt8
  modrm : Option ModRM
  /-- What follows ModRM. -/
  rest : List UInt8
deriving DecidableEq, Repr

namespace Reading

/-- The bytes of a reading. -/
def bytes (r : Reading) : List UInt8 :=
  r.overrides ++ (r.rex.map Rex.byte).toList ++ r.opcode ++ (r.modrm.map ModRM.byte).toList ++
    r.rest

/-- A reading of bytes as an instruction of a form. -/
structure IsOf (r : Reading) (mode : Mode) (f : Form) (bytes : List UInt8) : Prop where
  bytes_eq : r.bytes = bytes
  overrides : ∀ b ∈ r.overrides, isOverride b
  rex : r.rex.isSome → mode = .bit64
  opcode : f.readsOpcode r.opcode
  modrm : r.modrm.isSome = f.usesModRM

end Reading

/-- Reads bytes as an instruction of a form. -/
def read (mode : Mode) (f : Form) (bytes : List UInt8) : Option Reading :=
  let overrides := bytes.takeWhile isOverride
  let body := bytes.dropWhile isOverride
  let rex := if mode = .bit64 then body.head?.bind Rex.ofByte? else none
  let body := if rex.isSome then body.tail else body
  let opcode := body.take f.opcode.length
  let operands := body.drop f.opcode.length
  if !f.readsOpcode opcode then none
  else if f.usesModRM then
    operands.head?.map fun b => ⟨overrides, rex, opcode, some (ModRM.ofByte b), operands.tail⟩
  else some ⟨overrides, rex, opcode, none, operands⟩

/-! ## Forms that can be read -/

/-- Whether a slot takes a memory operand or a direct offset. -/
def Slot.takesMemory (s : Slot) : Bool :=
  match s.shape with
  | .registerOrMemory _ _ => true
  | .memory _ => true
  | .offset _ => true
  | _ => false

/-- Whether a slot has a shape that its place has room for: the opcode and ModRM.reg hold registers,
and a register that is implied is a fixed one. -/
def Slot.isSound (s : Slot) : Bool :=
  match s.placement, s.shape with
  | .opcode, .register _ _ => true
  | .reg, .register _ _ => true
  | .implied, .fixed _ => true
  | .standard, .fixed _ => false
  | .standard, _ => true
  | _, _ => false

namespace Form

/-- Whether the opcode of the form can start with a byte. -/
def mayStartWith (f : Form) (b : UInt8) : Bool :=
  match f.opcode with
  | [] => false
  | [o] => b &&& f.opcodeMask = o &&& f.opcodeMask
  | o :: _ => b = o

/-- A form whose instructions can be read in one way. -/
structure Readable (f : Form) : Prop where
  opcode_ne_nil : f.opcode ≠ []
  not_override : ∀ b, isOverride b → f.mayStartWith b = false
  not_rex : f.modes.bit64 → ∀ rex : Rex, f.mayStartWith rex.byte = false
  sound : ∀ s ∈ f.slots, s.isSound
  /-- No two registers share a place. -/
  one_opcode : f.slots.countP (·.placement = .opcode) ≤ 1
  one_reg : f.slots.countP (·.placement = .reg) ≤ 1
  one_rm : f.slots.countP Slot.isRm ≤ 1
  one_memory : f.slots.countP Slot.takesMemory ≤ 1
  /-- REX.B extends either the register in the opcode or ModRM.rm. -/
  opcode_or_rm : f.slots.any (·.placement = .opcode) → f.slots.any Slot.isRm = false
  digit_or_reg : f.digit.isSome → f.slots.any (·.placement = .reg) = false
  /-- A register in the opcode is added to zeros. -/
  low_zero : f.slots.any (·.placement = .opcode) →
    ∀ last, f.opcode.getLast? = some last → last &&& 0x07 = 0
  size : f.default64 → f.operandSize ≠ .bit32

/-- Whether a form passes the checks of `Readable`. -/
def isReadable (f : Form) : Bool :=
  f.opcode ≠ []
    && overrideBytes.all (fun b => !f.mayStartWith b)
    && (!f.modes.bit64 || Rex.allBytes.all fun b => !f.mayStartWith b)
    && f.slots.all Slot.isSound
    && f.slots.countP (·.placement = .opcode) ≤ 1
    && f.slots.countP (·.placement = .reg) ≤ 1
    && f.slots.countP Slot.isRm ≤ 1
    && f.slots.countP Slot.takesMemory ≤ 1
    && (!f.slots.any (·.placement = .opcode) || !f.slots.any Slot.isRm)
    && (!f.digit.isSome || !f.slots.any (·.placement = .reg))
    && (!f.slots.any (·.placement = .opcode) || f.opcode.getLast?.all (· &&& 0x07 = 0))
    && (!f.default64 || f.operandSize ≠ .bit32)

/-- What is checked of a form makes it readable. -/
theorem readable_of_isReadable {f : Form} (h : f.isReadable) : f.Readable := by
  simp only [isReadable, Bool.and_eq_true, decide_eq_true_eq, List.all_eq_true,
    Bool.not_eq_eq_eq_not, Bool.not_true] at h
  obtain ⟨⟨⟨⟨⟨⟨⟨⟨⟨⟨⟨hnil, hoverride⟩, hrex⟩, hsound⟩, hopcode⟩, hreg⟩, hrm⟩, hmemory⟩, hapart⟩,
    hdigit⟩, hlow⟩, hsize⟩ := h
  constructor
  · exact hnil
  · intro b hb
    exact hoverride b (by simpa [isOverride] using hb)
  · intro hlong rex
    rw [hlong] at hrex
    simp only [Bool.not_true, Bool.false_or, List.all_eq_true, Bool.not_eq_eq_eq_not] at hrex
    exact hrex rex.byte rex.byte_mem_allBytes
  · exact hsound
  · exact hopcode
  · exact hreg
  · exact hrm
  · exact hmemory
  · intro hany
    simpa [hany] using hapart
  · intro hany
    simpa [hany] using hdigit
  · intro hany last hlast
    simpa [hany, hlast] using hlow
  · intro hwide
    simpa [hwide] using hsize

/-- Every form of the opcode table can be read. -/
theorem readable_of_mem {op : Opcode} (hop : op ∈ OpcodeTable.opcodes) {f : Form}
    (hf : f ∈ op.forms) : f.Readable := by
  -- the whole table, checked at once
  have htable : OpcodeTable.opcodes.all (fun op => op.forms.all isReadable) = true := by
    decide +kernel
  simp only [List.all_eq_true] at htable
  exact readable_of_isReadable (htable op hop f hf)

end Form

/-! ## One reading -/

namespace Form

theorem length_of_matchesOpcode {mask : UInt8} {opcode bytes : List UInt8}
    (h : matchesOpcode mask opcode bytes) : bytes.length = opcode.length := by
  fun_induction matchesOpcode mask opcode bytes with
  | case1 o b => rfl
  | case2 o opcode b bytes _ ih =>
    simp only [Bool.and_eq_true] at h
    simp [ih h.2]
  | case3 => cases h

theorem length_of_readsOpcode {f : Form} {bytes : List UInt8} (h : f.readsOpcode bytes) :
    bytes.length = f.opcode.length :=
  length_of_matchesOpcode h

/-- An opcode that is read starts with a byte that it may start with. -/
theorem exists_mayStartWith {f : Form} {bytes : List UInt8} (h : f.readsOpcode bytes) :
    ∃ b rest, bytes = b :: rest ∧ f.mayStartWith b := by
  unfold readsOpcode at h
  unfold mayStartWith
  match hopcode : f.opcode, bytes with
  | [o], [b] =>
    rw [hopcode] at h
    exact ⟨b, [], rfl, h⟩
  | o :: o' :: opcode, b :: bytes =>
    rw [hopcode] at h
    simp only [matchesOpcode, Bool.and_eq_true] at h
    exact ⟨b, bytes, rfl, h.1⟩
  | [], _ => simp [hopcode, matchesOpcode] at h
  | _ :: _, [] => simp [hopcode, matchesOpcode] at h
  | [_], _ :: _ :: _ => simp [hopcode, matchesOpcode] at h

end Form

theorem Rex.byte_of_ofByte? {b : UInt8} {rex : Rex} (h : ofByte? b = some rex) : rex.byte = b := by
  obtain ⟨b⟩ := b
  obtain ⟨w, r, x, e⟩ := rex
  revert b w r x e
  decide +kernel

theorem takeWhile_append_of_head {α : Type} {q : α → Bool} {a b : List α} {x : α}
    (ha : ∀ x ∈ a, q x) (hb : b.head? = some x) (hx : q x = false) :
    (a ++ b).takeWhile q = a ∧ (a ++ b).dropWhile q = b := by
  obtain ⟨b, rfl⟩ := List.head?_eq_some_iff.mp hb
  rw [List.takeWhile_append_of_pos ha, List.dropWhile_append_of_pos ha]
  simp [hx]

namespace Reading

/-- The bytes behind the overrides. -/
def body (r : Reading) : List UInt8 :=
  (r.rex.map Rex.byte).toList ++ r.opcode ++ (r.modrm.map ModRM.byte).toList ++ r.rest

theorem bytes_eq_append (r : Reading) : r.bytes = r.overrides ++ r.body := by
  simp [bytes, body]

namespace IsOf

variable {r : Reading} {mode : Mode} {f : Form} {bytes : List UInt8}

/-- The bytes behind the overrides start with none. -/
theorem split_overrides (h : r.IsOf mode f bytes) (hf : f.Readable) :
    bytes.takeWhile isOverride = r.overrides ∧ bytes.dropWhile isOverride = r.body := by
  obtain ⟨b, hbody, hb⟩ : ∃ b, r.body.head? = some b ∧ isOverride b = false := by
    obtain ⟨b, rest, hopcode, hstart⟩ := Form.exists_mayStartWith h.opcode
    cases hrex : r.rex with
    | some rex => exact ⟨rex.byte, by simp [body, hrex], rex.not_isOverride_byte⟩
    | none =>
      refine ⟨b, by simp [body, hrex, hopcode], ?_⟩
      rw [← Bool.not_eq_true]
      intro hoverride
      rw [hf.not_override b hoverride] at hstart
      cases hstart
  rw [← h.bytes_eq, bytes_eq_append]
  exact takeWhile_append_of_head h.overrides hbody hb

/-- The reader finds the REX prefix, and none that is not there. -/
theorem head_body (h : r.IsOf mode f bytes) (hf : f.Readable) (hmode : f.modes.contains mode) :
    (if mode = .bit64 then r.body.head?.bind Rex.ofByte? else none) = r.rex := by
  obtain ⟨b, rest, hopcode, hstart⟩ := Form.exists_mayStartWith h.opcode
  cases hrex : r.rex with
  | some rex =>
    have hlong : mode = .bit64 := h.rex (by simp [hrex])
    simp [hlong, body, hrex, Rex.ofByte?_byte]
  | none =>
    split
    next hlong =>
      subst hlong
      simp only [body, hrex, hopcode, Option.map_none, Option.toList_none, List.nil_append,
        List.cons_append, List.head?_cons, Option.bind_some]
      cases hb : Rex.ofByte? b with
      | none => rfl
      | some rex =>
        -- the opcode cannot start with a REX prefix
        rw [← Rex.byte_of_ofByte? hb, hf.not_rex hmode rex] at hstart
        cases hstart
    next => rfl

/-- A readable form leaves one reading, and the reader finds it. -/
theorem read_eq (h : r.IsOf mode f bytes) (hf : f.Readable) (hmode : f.modes.contains mode) :
    read mode f bytes = some r := by
  obtain ⟨htake, hdrop⟩ := h.split_overrides hf
  have hrex := h.head_body hf hmode
  have htail : (if r.rex.isSome then r.body.tail else r.body) =
      r.opcode ++ ((r.modrm.map ModRM.byte).toList ++ r.rest) := by
    cases hrex : r.rex <;> simp [body, hrex]
  have hlength := Form.length_of_readsOpcode h.opcode
  unfold read
  simp only [htake, hdrop, hrex, htail, ← hlength, List.take_left, List.drop_left, h.opcode,
    Bool.not_true, Bool.false_eq_true, if_false, ← h.modrm]
  obtain ⟨overrides, rex, opcode, modrm, rest⟩ := r
  cases modrm with
  | some m => simp [ModRM.ofByte_byte]
  | none => rfl

end IsOf

end Reading

/-! ## What the bytes mean -/

/-- The class and width of the registers that a shape takes by number. -/
def Shape.registerKind? : Shape → Option (RegisterClass × DataSize)
  | .register cls size => some (cls, size)
  | .registerOrMemory cls size => some (cls, size)
  | _ => none

namespace Register

/-- The register of a number. Byte registers 4 to 7 are `ah` to `bh` without a REX prefix, `spl` to
`dil` with one. -/
def ofNumber? (cls : RegisterClass) (size : DataSize) (number : BitVec 4) (hasRex : Bool) :
    Option Register :=
  all.find? fun r =>
    r.cls = cls && r.size = size && r.number = number &&
      !(if hasRex then r.isHighByte else r.isUniformByte)

/-- A register that the REX prefix does not put out of reach is found by its number. -/
theorem ofNumber?_number {r : Register} {hasRex : Bool} (hhigh : r.isHighByte → hasRex = false)
    (huniform : r.isUniformByte → hasRex = true) :
    ofNumber? r.cls r.size r.number hasRex = some r := by
  have htable : ∀ r ∈ all, ∀ hasRex, (r.isHighByte → hasRex = false) →
      (r.isUniformByte → hasRex = true) → ofNumber? r.cls r.size r.number hasRex = some r := by
    decide +kernel
  exact htable r r.mem_all hasRex hhigh huniform

/-- The number of a register in the two parts that an instruction holds. -/
theorem number_eq_append (r : Register) : BitVec.ofBool r.isExtended ++ r.low = r.number := by
  have hparts : ∀ n : BitVec 4, BitVec.ofBool n.msb ++ n.setWidth 3 = n := by decide
  exact hparts r.number

end Register

namespace Reading

/-- The segments that overrides select. -/
def segments (r : Reading) : List Register := r.overrides.filterMap segmentOf?

/-- The extension bits. No prefix extends nothing. -/
def extension (r : Reading) : Rex := r.rex.getD .empty

/-- Width of the operation. `default64` says that it needs no REX.W for 64 bits. -/
def operandSize (r : Reading) (mode : Mode) (default64 : Bool) : DataSize :=
  match mode with
  | .bit16 => if 0x66 ∈ r.overrides then .bit32 else .bit16
  | .bit32 => if 0x66 ∈ r.overrides then .bit16 else .bit32
  | .bit64 =>
    if r.extension.w then .bit64
    else if 0x66 ∈ r.overrides then .bit16
    else if default64 then .bit64
    else .bit32

/-- Width of an address. -/
def addressSize (r : Reading) (mode : Mode) : DataSize :=
  match mode with
  | .bit16 => if 0x67 ∈ r.overrides then .bit32 else .bit16
  | .bit32 => if 0x67 ∈ r.overrides then .bit16 else .bit32
  | .bit64 => if 0x67 ∈ r.overrides then .bit32 else .bit64

/-- The number of the register in a place. ModRM.rm holds one where ModRM.mod says so. -/
def numberAt? (r : Reading) : Placement → Option (BitVec 4)
  | .opcode =>
    r.opcode.getLast?.map fun last => BitVec.ofBool r.extension.b ++ last.toBitVec.setWidth 3
  | .reg => r.modrm.map fun m => BitVec.ofBool r.extension.r ++ m.reg
  | .standard =>
    r.modrm.bind fun m =>
      if m.mod = 0b11 then some (BitVec.ofBool r.extension.b ++ m.rm) else none
  | .implied => none

/-- The register that a slot of the form takes. -/
def registerAt? (r : Reading) (slot : Slot) : Option Register :=
  slot.shape.registerKind?.bind fun (cls, size) =>
    (r.numberAt? slot.placement).bind fun number => Register.ofNumber? cls size number r.rex.isSome

end Reading

end Assembler
