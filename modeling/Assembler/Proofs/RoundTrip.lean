import Assembler.Proofs.Passes
import Assembler.Proofs.Placement

/-!
# Encoded instructions read back

`Instruction.read_encode`: a reader that knows the form of an instruction finds one way to read its
fixed bytes, and finds in them what the operands are: the segment and the address size of a memory
operand, the operand size, the extension of the opcode, and every register that the form places.

Each part of `Form.encode` has a lemma that inverts it: ModRM with what belongs to it, the REX
prefix and the overrides. `Form.exists_holds` puts them together to a reading of the bytes, and
`Reading.Holds.recovers` says what it recovers.
-/

namespace Assembler

/-! ## ModRM -/

/-- Bytes that start with a ModRM byte, and extension bits that leave REX.W and REX.R alone. -/
structure EncodedAddress.HasReg (enc : EncodedAddress) (reg : BitVec 3) : Prop where
  bytes : ∃ mod rm rest, enc.bytes = ModRM.byte ⟨mod, reg, rm⟩ :: rest
  w : enc.rex.w = false
  r : enc.rex.r = false

namespace Address

variable {a : Address} {size : DataSize} {reg : BitVec 3} {mode : Mode}

theorem encode16_hasReg {enc : EncodedAddress} (h : a.encode16 reg = .ok enc) : enc.HasReg reg := by
  unfold encode16 at h
  split at h
  · cases h
  split at h
  · cases h
    exact ⟨⟨_, _, _, rfl⟩, rfl, rfl⟩
  split at h
  · cases h
  · cases h
    exact ⟨⟨_, _, _, rfl⟩, rfl, rfl⟩

theorem encodeBaseless_hasReg (scale : BitVec 2) {rex : Rex} (hw : rex.w = false)
    (hr : rex.r = false) : (a.encodeBaseless size reg mode scale rex).HasReg reg := by
  refine ⟨?_, hw, hr⟩
  unfold encodeBaseless
  dsimp only
  split
  · exact ⟨_, _, _, rfl⟩
  · split <;> exact ⟨_, _, _, rfl⟩

theorem encodeBased_hasReg (base : Register) (scale : BitVec 2) {rex : Rex} (hw : rex.w = false)
    (hr : rex.r = false) : (a.encodeBased base size reg scale rex).HasReg reg := by
  refine ⟨?_, hw, hr⟩
  unfold encodeBased
  dsimp only
  split
  · exact ⟨_, _, _, rfl⟩
  · split <;> exact ⟨_, _, _, rfl⟩

/-- The bytes of an address start with a ModRM byte that has the given reg. -/
theorem encode_hasReg {enc : EncodedAddress} (h : a.encode size reg mode = .ok enc) :
    enc.HasReg reg := by
  unfold encode at h
  split at h
  · exact encode16_hasReg h
  split at h
  · split at h
    · cases h
    · cases h
      exact ⟨⟨_, _, _, rfl⟩, rfl, rfl⟩
  split at h
  · cases h
  · obtain ⟨-, -, h⟩ := exceptBind_eq_ok.mp h
    split at h
    · cases h
      exact encodeBaseless_hasReg _ rfl rfl
    · cases h
      exact encodeBased_hasReg _ _ rfl rfl

end Address

namespace Form

/-- ModRM and the extension bits that come with it show an assignment. -/
structure Shows (modrm : Option ModRM) (rex : Rex) (a : Assignment) : Prop where
  isSome : modrm.isSome = (a.reg.isSome || a.rm.isSome)
  reg : ∀ reg, a.reg = some reg → modrm.map ModRM.reg = some reg
  rm : ∀ r, a.rm = some (.register r) →
    modrm.map ModRM.mod = some 0b11 ∧ modrm.map ModRM.rm = some r.low ∧ rex.b = r.isExtended
  b : a.rm = none → rex.b = false
  w : rex.w = false
  r : rex.r = false

/-- The bytes behind the opcode start with the ModRM byte that shows the assignment, if there is
one. -/
theorem operandBytes_eq_ok {a : Assignment} {size : DataSize} {mode : Mode} {tail : EncodedAddress}
    (h : operandBytes a size mode = .ok tail) (hrm : ∀ op, a.rm = some op → op.isRm) :
    ∃ (modrm : Option ModRM) (rest : List UInt8),
      tail.bytes = (modrm.map ModRM.byte).toList ++ rest ∧ Shows modrm tail.rex a := by
  unfold operandBytes at h
  match hplaced : a.rm with
  | some (.register r) =>
    rw [hplaced] at h
    cases h
    refine ⟨some ⟨0b11, a.reg.getD 0, r.low⟩, [], rfl, by simp [hplaced], ?_, ?_, ?_, rfl, rfl⟩
    · rintro reg hreg
      simp [hreg]
    · rintro r' hr'
      cases hplaced.symm.trans hr'
      exact ⟨rfl, rfl, rfl⟩
    · simp [hplaced]
  | some (.memory m) =>
    rw [hplaced] at h
    obtain ⟨⟨mod, rm, rest, hbytes⟩, hw, hr⟩ := Address.encode_hasReg h
    refine ⟨some ⟨mod, a.reg.getD 0, rm⟩, rest, hbytes, by simp [hplaced], ?_, ?_, ?_, hw, hr⟩
    · rintro reg hreg
      simp [hreg]
    · simp [hplaced]
    · simp [hplaced]
  | none =>
    rw [hplaced] at h
    cases h
    -- the byte is there for ModRM.reg alone
    cases hreg : a.reg with
    | some reg =>
      refine ⟨some ⟨0b11, reg, 0⟩, [], by simp, by simp [hreg], ?_, ?_, fun _ => rfl, rfl, rfl⟩
      · rintro reg' hreg'
        cases hreg.symm.trans hreg'
        rfl
      · simp [hplaced]
    | none =>
      exact ⟨none, [], by simp, by simp [hreg, hplaced], by simp [hreg], by simp [hplaced],
        fun _ => rfl, rfl, rfl⟩
  | some (.immediate _) => exact absurd (hrm _ hplaced) nofun
  | some (.offset _) => exact absurd (hrm _ hplaced) nofun
  | some (.branch _) => exact absurd (hrm _ hplaced) nofun

/-! ## The REX prefix -/

/-- A REX prefix is written with the bits that are set, in 64-bit mode and without a high byte
register only. It is left out where nothing needs it. -/
theorem rexBytes_eq_ok {mnemonic : String} {operands : List Operand} {mode : Mode} {rex : Rex}
    {needed : Bool} {bytes : List UInt8}
    (h : rexBytes mnemonic operands mode rex needed = .ok bytes) :
    ∃ found : Option Rex,
      bytes = (found.map Rex.byte).toList ∧ found.getD .empty = rex ∧
      (needed → found.isSome) ∧
      (found.isSome → mode = .bit64 ∧ ∀ r, .register r ∈ operands → r.isHighByte = false) := by
  unfold rexBytes at h
  split at h
  next hnone =>
    cases h
    simp only [Bool.and_eq_true, decide_eq_true_eq, Bool.not_eq_eq_eq_not, Bool.not_true] at hnone
    exact ⟨none, rfl, hnone.1.symm, by simp [hnone.2], nofun⟩
  next =>
    split at h
    · cases h
    next hlong =>
      split at h
      · cases h
      next hhigh =>
        cases h
        refine ⟨some rex, rfl, rfl, fun _ => rfl, fun _ => ⟨Decidable.not_not.mp hlong, ?_⟩⟩
        intro r hr
        have hhigh := List.findSome?_eq_none_iff.mp hhigh _ hr
        simpa [Operand.highByte?] using hhigh

/-! ## Overrides -/

/-- The segment of the operands is found among the overrides, and nothing else is. -/
theorem segmentBytes_eq_ok {operands : List Operand} {bytes : List UInt8}
    (h : segmentBytes operands = .ok bytes) :
    bytes.filterMap segmentOf? = (segment? operands).toList ∧
      ∀ b ∈ bytes, isOverride b ∧ b ≠ 0x66 ∧ b ≠ 0x67 := by
  unfold segmentBytes at h
  split at h
  next hnone =>
    cases h
    simp [hnone]
  next r hr =>
    split at h
    next byte hbyte =>
      cases h
      rw [hr]
      unfold Register.segmentOverride? at hbyte
      split at hbyte <;> cases hbyte <;> simp [segmentOf?, isOverride, overrideBytes]
    · cases h

theorem sizeBytes_eq (f : Form) (mode : Mode) :
    f.sizeBytes mode = [] ∨ f.sizeBytes mode = [0x66] := by
  unfold sizeBytes
  split <;> simp

theorem addressBytes_eq_ok {mode : Mode} {size : Option DataSize} {bytes : List UInt8}
    (h : addressBytes mode size = .ok bytes) : bytes = [] ∨ bytes = [0x67] := by
  unfold addressBytes at h
  split at h
  · cases h
    exact .inl rfl
  · split at h <;> cases h <;> simp

/-- The overrides of an instruction, of which each kind is found. -/
structure OverridesOf (overrides : List UInt8) (f : Form) (operands : List Operand) (mode : Mode)
    (address : List UInt8) : Prop where
  isOverride : ∀ b ∈ overrides, isOverride b
  segments : overrides.filterMap segmentOf? = (segment? operands).toList
  size : 0x66 ∈ overrides ↔ f.sizeBytes mode = [0x66]
  address : 0x67 ∈ overrides ↔ address = [0x67]

/-- The overrides of segment, operand size and address size are found in their order. -/
theorem overridesOf_append {operands : List Operand} {segment address : List UInt8} {mode : Mode}
    {size : Option DataSize} (f : Form) (hsegment : segmentBytes operands = .ok segment)
    (haddress : addressBytes mode size = .ok address) :
    OverridesOf (segment ++ f.sizeBytes mode ++ address) f operands mode address := by
  obtain ⟨hsegments, hsegment⟩ := segmentBytes_eq_ok hsegment
  -- no two kinds of override share a byte
  have hsize : 0x66 ∉ segment := fun h => (hsegment _ h).2.1 rfl
  have hwidth : 0x67 ∉ segment := fun h => (hsegment _ h).2.2 rfl
  have hsizes : segmentOf? 0x66 = none ∧ segmentOf? 0x67 = none := by decide
  have hkinds : isOverride 0x66 ∧ isOverride 0x67 := by decide
  rcases f.sizeBytes_eq mode with hbytes | hbytes <;>
    rcases addressBytes_eq_ok haddress with rfl | rfl <;>
    constructor <;> simp_all [List.filterMap_append, or_imp, forall_and]

end Form

namespace Reading

variable {r : Reading} {mode : Mode} {f : Form} {operands : List Operand} {address : List UInt8}

/-- The overrides and REX.W give the operand size of the form back. -/
theorem operandSize_eq (h : Form.OverridesOf r.overrides f operands mode address)
    (hw : r.extension.w = f.wideRex.w) (hf : f.Readable)
    (hvalid : mode ≠ .bit64 → f.operandSize ≠ .bit64)
    (hsize : f.operandSize = .bit16 ∨ f.operandSize = .bit32 ∨ f.operandSize = .bit64) :
    r.operandSize mode f.default64 = f.operandSize := by
  have hwide := hf.size
  have hbytes := h.size
  unfold Form.sizeBytes at hbytes
  unfold operandSize
  cases mode <;> rcases hsize with hsize | hsize | hsize <;>
    simp_all [Form.wideRex, Rex.empty]

/-- The overrides give the address size back. -/
theorem addressSize_eq (h : Form.OverridesOf r.overrides f operands mode address) {size : DataSize}
    (haddress : Form.addressBytes mode (some size) = .ok address) : r.addressSize mode = size := by
  have hbytes := h.address
  unfold Form.addressBytes at haddress
  unfold addressSize
  cases mode <;> cases size <;> simp_all

end Reading

/-! ## The whole instruction -/

/-- A reading that holds what the parts of `Form.encode` give. -/
structure Reading.Holds (r : Reading) (f : Form) (operands : List Operand) (mode : Mode)
    (address : List UInt8) : Prop where
  overrides : Form.OverridesOf r.overrides f operands mode address
  opcode : r.opcode = (f.assign operands).opcode
  modrm : ∃ rex, Form.Shows r.modrm rex (f.assign operands) ∧
    r.extension = (f.assign operands).rex.union rex
  needsRex : (f.assign operands).needsRex → r.rex.isSome
  rex : r.rex.isSome → mode = .bit64 ∧ ∀ reg, .register reg ∈ operands → reg.isHighByte = false

/-- The bytes of an instruction are those of a reading that holds their parts. -/
theorem Form.exists_holds {f : Form} {mnemonic : String} {operands : List Operand} {mode : Mode}
    {bytes : List UInt8} {fields : List Field}
    (h : f.encode mnemonic operands mode = .ok (bytes, fields)) :
    ∃ (r : Reading) (size : Option DataSize) (address : List UInt8),
      r.bytes = bytes ∧ addressSize? operands mode = .ok size ∧
        addressBytes mode size = .ok address ∧ r.Holds f operands mode address := by
  unfold encode at h
  simp only [exceptBind_eq_ok] at h
  obtain ⟨segment, hsegment, size, hsize, address, haddress, tail, htail, prefixes, hrex, h⟩ := h
  cases h
  obtain ⟨modrm, rest, hbytes, hshows⟩ :=
    operandBytes_eq_ok htail fun op hop => Takes.isRm_of_assign_rm hop
  obtain ⟨rex, rfl, hextension, hneeded, hlong⟩ := rexBytes_eq_ok hrex
  refine ⟨⟨segment ++ f.sizeBytes mode ++ address, rex, (f.assign operands).opcode, modrm, rest⟩,
    size, address, ?_, hsize, haddress, ?_⟩
  · simp [Reading.bytes, hbytes]
  · exact ⟨overridesOf_append f hsegment haddress, rfl, ⟨tail.rex, hshows, hextension⟩, hneeded,
      hlong⟩

namespace Reading.Holds

variable {r : Reading} {f : Form} {operands : List Operand} {mode : Mode} {address : List UInt8}

theorem isOf (h : r.Holds f operands mode address) (hf : f.Takes operands) :
    r.IsOf mode f r.bytes := by
  obtain ⟨rex, hshows, -⟩ := h.modrm
  refine ⟨rfl, h.overrides.isOverride, fun hrex => (h.rex hrex).1, ?_, ?_⟩
  · rw [h.opcode]
    exact hf.readsOpcode
  · rw [hshows.isSome, hf.assign_usesModRM]

theorem extension_w (h : r.Holds f operands mode address) : r.extension.w = f.wideRex.w := by
  obtain ⟨rex, hshows, hextension⟩ := h.modrm
  rw [hextension]
  simp [Rex.union, Form.assign_eq, Assignment.placeAll, Rex.empty, hshows.w]

theorem map_reg (h : r.Holds f operands mode address) {reg : BitVec 3}
    (hreg : (f.assign operands).reg = some reg) : r.modrm.map ModRM.reg = some reg := by
  obtain ⟨rex, hshows, -⟩ := h.modrm
  exact hshows.reg reg hreg

/-- A register is found by number in the place that its slot has. -/
theorem numberAt?_eq (h : r.Holds f operands mode address) (hf : f.Takes operands) {slot : Slot}
    {reg : Register} (hpair : (slot, .register reg) ∈ f.pair operands)
    (hplace : slot.placement ≠ .implied) : r.numberAt? slot.placement = some reg.number := by
  obtain ⟨rex, hshows, hextension⟩ := h.modrm
  have hslot : slot ∈ f.slots := (List.of_mem_zip hpair).1
  cases hp : slot.placement with
  | implied => exact absurd hp hplace
  | opcode =>
    -- REX.B belongs to the opcode, as nothing is in ModRM.rm
    have hrm := hf.readable.opcode_or_rm (List.any_eq_true.mpr ⟨slot, hslot, by simp [hp]⟩)
    have hb : r.extension.b = reg.isExtended := by
      rw [hextension]
      simp [Rex.union, (hf.assign_opcode hpair hp).2, hshows.b (hf.assign_rm_of_none hrm)]
    have hlow := (hf.readsOpcode_of_mem hpair hp).2
    obtain ⟨last, hlast, hlow⟩ := Option.map_eq_some_iff.mp hlow
    rw [← h.opcode] at hlast
    simp [numberAt?, hlast, hlow, hb, Register.number_eq_append]
  | reg =>
    have hr : r.extension.r = reg.isExtended := by
      rw [hextension]
      simp [Rex.union, (hf.assign_reg hpair hp).2, hshows.r]
    obtain ⟨m, hm, hlow⟩ := Option.map_eq_some_iff.mp (h.map_reg (hf.assign_reg hpair hp).1)
    simp [numberAt?, hm, hlow, hr, Register.number_eq_append]
  | standard =>
    have hisRm : slot.isRm := by
      rw [(hf.fits hpair).isRm (hf.isSound hpair), hp]
      rfl
    -- REX.B belongs to ModRM.rm, as no register is in the opcode
    have hopcode : f.slots.any (·.placement = .opcode) = false := by
      rw [← Bool.not_eq_true]
      intro hany
      exact absurd (List.any_eq_true.mpr ⟨slot, hslot, hisRm⟩)
        (Bool.eq_false_iff.mp (hf.readable.opcode_or_rm hany))
    obtain ⟨hmod, hrm, hext⟩ := hshows.rm reg (hf.assign_rm hpair hisRm)
    have hb : r.extension.b = reg.isExtended := by
      rw [hextension]
      simp [Rex.union, (hf.assign_opcode_of_none hopcode).2, hext]
    obtain ⟨m, hm, hmod⟩ := Option.map_eq_some_iff.mp hmod
    rw [hm, Option.map_some, Option.some.injEq] at hrm
    simp [numberAt?, hm, hmod, hrm, hb, Register.number_eq_append]

/-- A byte register that only a REX prefix selects gets one. -/
theorem isSome_rex (h : r.Holds f operands mode address) {slot : Slot} {reg : Register}
    (hpair : (slot, .register reg) ∈ f.pair operands) (huniform : reg.isUniformByte) :
    r.rex.isSome := by
  apply h.needsRex
  have hbyte : Assignment.isRexByte (.register reg) := by
    cases reg <;> first | rfl | cases huniform
  simp only [Form.assign_eq, Assignment.placeAll, Bool.false_or]
  exact List.any_eq_true.mpr ⟨_, hpair, hbyte⟩

/-- Every register that the form places is recovered. -/
theorem registerAt?_eq (h : r.Holds f operands mode address) (hf : f.Takes operands) {slot : Slot}
    {reg : Register} (hpair : (slot, .register reg) ∈ f.pair operands)
    (hplace : slot.placement ≠ .implied) : r.registerAt? slot = some reg := by
  have hkind : slot.shape.registerKind? = some (reg.cls, reg.size) := by
    rcases (hf.fits hpair).register with hfixed | hkind
    · -- a slot for a fixed register is implied
      have hsound := hf.isSound hpair
      unfold Slot.isSound at hsound
      rw [hfixed] at hsound
      cases hp : slot.placement <;> simp_all
    · exact hkind
  have hhigh : reg.isHighByte → r.rex.isSome = false := by
    intro hhigh
    rw [← Bool.not_eq_true]
    intro hrex
    rw [(h.rex hrex).2 reg (List.of_mem_zip hpair).2] at hhigh
    cases hhigh
  simp only [registerAt?, hkind, Option.bind_some, h.numberAt?_eq hf hpair hplace]
  exact Register.ofNumber?_number hhigh (h.isSome_rex hpair)

end Reading.Holds

/-- What a reading recovers of an instruction of a form. -/
structure Reading.Recovers (r : Reading) (mode : Mode) (f : Form) (operands : List Operand) :
    Prop where
  memory : ∀ a, .memory a ∈ operands →
    r.segments = a.segment.toList ∧ a.effectiveSize mode = .ok (r.addressSize mode)
  offset : ∀ m, .offset m ∈ operands →
    r.segments = m.segment.toList ∧ m.effectiveSize mode = r.addressSize mode
  /-- Without a memory operand there is no override of its segment or address size. -/
  no_memory : (∀ op ∈ operands, op.addressesMemory = false) →
    r.segments = [] ∧ 0x67 ∉ r.overrides
  operandSize : f.operandSize = .bit16 ∨ f.operandSize = .bit32 ∨ f.operandSize = .bit64 →
    r.operandSize mode f.default64 = f.operandSize
  digit : ∀ d, f.digit = some d → r.modrm.map ModRM.reg = some d
  register : ∀ slot reg, (slot, .register reg) ∈ f.pair operands → slot.placement ≠ .implied →
    r.registerAt? slot = some reg

/-- A reading that holds the parts of an instruction recovers it: segment and address size of its
memory operand, operand size, opcode extension, and the register in every slot. -/
theorem Reading.Holds.recovers {r : Reading} {f : Form} {operands : List Operand} {mode : Mode}
    {size : Option DataSize} {address : List UInt8} (h : r.Holds f operands mode address)
    (hf : f.Takes operands) (hvalid : f.isValidIn operands mode)
    (hsize : Form.addressSize? operands mode = .ok size)
    (haddress : Form.addressBytes mode size = .ok address) : r.Recovers mode f operands := by
  have hsegments : r.segments = (Form.segment? operands).toList := h.overrides.segments
  constructor
  · intro a ha
    -- the memory operand is the one that the overrides were taken from
    obtain ⟨hmemory, hoffset⟩ := hf.findSome?_memory? ha rfl
    simp only [Form.addressSize?, hmemory, Operand.memory?] at hsize
    cases heffective : a.effectiveSize mode with
    | error e => simp [heffective, Except.map] at hsize
    | ok width =>
      simp only [heffective, Except.map, Except.ok.injEq] at hsize
      subst hsize
      rw [addressSize_eq h.overrides haddress, hsegments]
      simp [Form.segment?, hmemory, hoffset, Operand.memory?, Operand.offset?]
  · intro m hm
    obtain ⟨hmemory, hoffset⟩ := hf.findSome?_memory? hm rfl
    simp only [Form.addressSize?, hmemory, hoffset, Operand.memory?, Operand.offset?,
      Except.ok.injEq] at hsize
    subst hsize
    rw [addressSize_eq h.overrides haddress, hsegments]
    simp [Form.segment?, hmemory, hoffset, Operand.memory?, Operand.offset?]
  · intro hnone
    obtain ⟨hmemory, hoffset⟩ := Form.findSome?_of_no_memory hnone
    simp only [Form.addressSize?, hmemory, hoffset, Except.ok.injEq] at hsize
    subst hsize
    cases haddress
    refine ⟨by simp [hsegments, Form.segment?, hmemory, hoffset], ?_⟩
    rw [h.overrides.address]
    nofun
  · refine operandSize_eq h.overrides h.extension_w hf.readable ?_
    intro hlegacy
    unfold Form.isValidIn at hvalid
    cases mode <;> simp_all
  · intro d hd
    have hnone := hf.readable.digit_or_reg (by simp [hd])
    exact h.map_reg ((hf.assign_reg_of_none hnone).trans hd)
  · intro slot reg hpair hplace
    exact h.registerAt?_eq hf hpair hplace

namespace Instruction

variable {i : Instruction} {mode : Mode} {known : KnownValues} {f : Form} {e : Encoded}

/-- The fixed bytes of an instruction are read in one way, which recovers its form's operands: the
segment and address size of the memory operand, the operand size, the opcode extension and every
register that has a place. -/
theorem read_encode (hselect : i.select mode known = .ok f)
    (hencode : i.encode mode known = .ok e) :
    ∃ r, read mode f e.bytes = some r ∧ (∀ r', r'.IsOf mode f e.bytes ↔ r' = r) ∧
      r.Recovers mode f i.operands := by
  obtain ⟨htakes, hvalid⟩ := takes_of_select hselect
  have hmode : f.modes.contains mode := by
    simp only [Form.isValidIn, Bool.and_eq_true] at hvalid
    exact hvalid.1
  simp only [encode, exceptBind_eq_ok] at hencode
  obtain ⟨g, hg, ⟨bytes, fields⟩, hbytes, hencoded⟩ := hencode
  cases hselect.symm.trans hg
  cases hencoded
  obtain ⟨r, size, address, rfl, hsize, haddress, hholds⟩ := Form.exists_holds hbytes
  have hisOf := hholds.isOf htakes
  have hread := hisOf.read_eq htakes.readable hmode
  refine ⟨r, hread, fun r' => ⟨fun h => ?_, ?_⟩, hholds.recovers htakes hvalid hsize haddress⟩
  · have hread' := h.read_eq htakes.readable hmode
    exact Option.some.inj (hread'.symm.trans hread)
  · rintro rfl
    exact hisOf

/-- `mov byte [fs:r13d], spl`: overrides of segment and address size, REX.B for the base, and a byte
register that would be `ah` without the prefix. -/
def storeStackByte : Instruction where
  mnemonic := "mov"
  operands :=
    [.memory { Address.new .bit8 with segment := some .fs, base := some .r13d }, .register .spl]

/-- A store with a segment, an address of 32 bits and a byte register that needs REX is read
back. -/
theorem read_encode_storeStackByte :
    ∃ r, read .bit64 (Form.of [0x88] [.rm .bit8, .reg .bit8]).op8 [0x64, 0x67, 0x41, 0x88, 0x65] =
        some r ∧
      r.segments = [.fs] ∧ r.addressSize .bit64 = .bit32 ∧
      r.registerAt? (.reg .bit8) = some .spl := by
  have hselect : storeStackByte.select .bit64 [] =
      .ok (Form.of [0x88] [.rm .bit8, .reg .bit8]).op8 := eq_ok_of_toOption (by decide +kernel)
  have hbytes : (storeStackByte.encode .bit64 []).toOption.map Encoded.bytes =
      some [0x64, 0x67, 0x41, 0x88, 0x65] := by decide +kernel
  obtain ⟨e, hencode, hbytes⟩ := Option.map_eq_some_iff.mp hbytes
  obtain ⟨r, hread, -, hrecovers⟩ := read_encode hselect (eq_ok_of_toOption hencode)
  rw [hbytes] at hread
  obtain ⟨hsegments, hsize⟩ := hrecovers.memory _ List.mem_cons_self
  have hwidth : Address.effectiveSize
      { Address.new .bit8 with segment := some .fs, base := some .r13d } .bit64 = .ok .bit32 := rfl
  refine ⟨r, hread, hsegments, (Except.ok.inj (hwidth.symm.trans hsize)).symm, ?_⟩
  refine hrecovers.register _ _ ?_ nofun
  exact List.mem_cons_of_mem _ List.mem_cons_self

end Instruction

end Assembler
