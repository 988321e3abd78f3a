import Assembler.Proofs.Expressions
import Assembler.Proofs.RoundTrip

/-!
# Selected instructions that have no encoding

Selection and encoding decide on a REX prefix each in its own way: `Form.isValidIn` looks at the
operands one by one, `Form.encode` collects extension bits while it puts operands in their places
and forms the address. They come to the same. An instruction has the prefix if its form is 64 bits
wide or one of its operands needs the prefix (`Operand.needsRex`), and not otherwise
(`Form.Takes.rex_eq_empty_iff`).

So a form that is valid in a mode without REX never asks for it, and what is left to fail is the
address, or in 64-bit mode a high byte register beside the prefix. Main statement:
`Instruction.encode_of_select`.
-/

namespace Assembler

theorem Rex.union_eq_empty {p q : Rex} : p.union q = .empty ↔ p = .empty ∧ q = .empty := by
  obtain ⟨w, r, x, b⟩ := p
  obtain ⟨w', r', x', b'⟩ := q
  simp only [union, empty, Rex.mk.injEq, Bool.or_eq_false_iff]
  grind

namespace Operand

/-- Whether a register of the operand has a number that needs a bit of a REX prefix. -/
def isExtended : Operand → Bool
  | .register r => r.isExtended
  | .memory a => a.usesExtended
  | _ => false

/-- Whether the operand cannot be written without a REX prefix. -/
def needsRex (op : Operand) : Bool := op.isExtended || Assignment.isRexByte op

end Operand

/-- The register that a shape fixes. -/
def Shape.fixed? : Shape → Option Register
  | .fixed r => some r
  | _ => none

/-- The forms of all opcodes. -/
def OpcodeTable.forms : List Form := opcodes.flatMap Opcode.forms

/-! ## Causes of failure -/

/-- The errors of memory operands. -/
def EncodeError.IsOfAddress : EncodeError → Prop
  | .invalidAddress _ => True
  | _ => False

namespace Address

variable {a : Address} {size : DataSize} {reg : BitVec 3} {mode : Mode} {e : EncodeError}

theorem effectiveSize_isOfAddress (h : a.effectiveSize mode = .error e) : e.IsOfAddress := by
  have himplied {rs : List Register} (h : impliedSize rs = .error e) : e.IsOfAddress := by
    unfold impliedSize at h
    grind [EncodeError.IsOfAddress]
  unfold effectiveSize at h
  split at h
  · cases h
  · rcases exceptBind_eq_error.1 h with h | ⟨implied, -, h⟩
    · exact himplied h
    · grind [EncodeError.IsOfAddress]

theorem encode16_isOfAddress (h : a.encode16 reg = .error e) : e.IsOfAddress := by
  unfold encode16 at h
  grind [EncodeError.IsOfAddress]

/-- An address fails to have bytes for a reason of memory operands. -/
theorem encode_isOfAddress (h : a.encode size reg mode = .error e) : e.IsOfAddress := by
  unfold encode at h
  split at h
  · exact encode16_isOfAddress h
  split at h
  · grind [EncodeError.IsOfAddress]
  split at h
  · cases h
    trivial
  · rcases exceptBind_eq_error.1 h with h | ⟨-, -, h⟩
    · unfold checkIndex at h
      grind [EncodeError.IsOfAddress]
    · split at h <;> cases h

/-- The bytes of an address come with extension bits if a register of it has an extended number. -/
theorem encode_rex_eq_empty_iff {enc : EncodedAddress} (h : a.encode size reg mode = .ok enc) :
    enc.rex = .empty ↔ a.usesExtended = false := by
  have hextension : a.extension = .empty ↔ a.usesExtended = false := by
    unfold usesExtended registers extension
    cases a.base <;> cases a.index <;> simp [Rex.empty, and_comm]
  by_cases hsize : size = .bit16
  · -- the registers of a 16-bit address have low numbers
    rw [encode, if_pos hsize, encode16_eq_ok] at h
    obtain ⟨-, ⟨hbase, hindex, rfl⟩ | ⟨-, rm, hrm, rfl⟩⟩ := h
    · simp [usesExtended, registers, hbase, hindex]
    · unfold usesExtended registers
      unfold pairBits? at hrm
      split at hrm <;> simp_all <;> decide
  · obtain ⟨-, hbase, hindex, rfl⟩ | ⟨-, -, scale, -, ⟨-, rfl⟩ | ⟨base, hbase, rfl⟩⟩ :=
      (encode_eq_ok hsize).1 h
    · simp [usesExtended, registers, hbase, hindex]
    · exact hextension
    · rw [← hextension]
      simp [encodeBased, extension, hbase]

end Address

namespace Form

variable {f : Form} {mnemonic : String} {operands : List Operand} {mode : Mode}

/-- Without a memory operand there is no segment and no address. -/
theorem addressSize?_of_no_memory (h : ∀ op ∈ operands, op.addressesMemory = false) (mode : Mode) :
    segmentBytes operands = .ok [] ∧ addressSize? operands mode = .ok none := by
  obtain ⟨hmemory, hoffset⟩ := findSome?_of_no_memory h
  constructor
  · simp [segmentBytes, segment?, hmemory, hoffset]
  · simp [addressSize?, hmemory, hoffset]

theorem segmentBytes_isOfAddress {e : EncodeError} (h : segmentBytes operands = .error e) :
    e.IsOfAddress := by
  unfold segmentBytes at h
  split at h
  · cases h
  · split at h <;> cases h
    trivial

/-- The width of addresses fails to be found for a reason of memory operands. -/
theorem addressSize?_isOfAddress {e : EncodeError} (h : addressSize? operands mode = .error e) :
    e.IsOfAddress := by
  unfold addressSize? at h
  split at h
  next _ _ a _ =>
    cases heffective : a.effectiveSize mode with
    | error cause =>
      rw [heffective] at h
      cases h
      exact Address.effectiveSize_isOfAddress heffective
    | ok size =>
      rw [heffective] at h
      cases h
  · cases h
  · cases h

theorem addressBytes_isOfAddress {size : Option DataSize} {e : EncodeError}
    (h : addressBytes mode size = .error e) : e.IsOfAddress := by
  unfold addressBytes at h
  split at h
  · cases h
  · split at h <;> cases h
    trivial

/-- What ModRM.rm names fails only if it is a memory operand. -/
theorem operandBytes_eq_error {a : Assignment} {size : DataSize} {e : EncodeError}
    (h : operandBytes a size mode = .error e) : e.IsOfAddress ∧ ∃ m, a.rm = some (.memory m) := by
  unfold operandBytes at h
  split at h
  · cases h
  next m hm => exact ⟨Address.encode_isOfAddress h, m, hm⟩
  · cases h

/-- The bytes of ModRM come with extension bits if what ModRM.rm names is extended. -/
theorem operandBytes_rex_eq_empty_iff {a : Assignment} {size : DataSize} {tail : EncodedAddress}
    (h : operandBytes a size mode = .ok tail) :
    tail.rex = .empty ↔ ∀ op, a.rm = some op → op.isExtended = false := by
  unfold operandBytes at h
  split at h
  next r hr =>
    cases h
    simp [hr, Operand.isExtended, Rex.empty]
  next m hm =>
    rw [Address.encode_rex_eq_empty_iff h]
    simp [hm, Operand.isExtended]
  next hregister hmemory =>
    cases h
    simp only [true_iff]
    intro op hop
    cases op with
    | register r => exact absurd hop (hregister r)
    | memory m => exact absurd hop (hmemory m)
    | immediate | offset | branch => rfl

/-- A REX prefix fails outside 64-bit mode, and beside a high byte register. -/
theorem rexBytes_eq_error {rex : Rex} {needed : Bool} {e : EncodeError}
    (h : rexBytes mnemonic operands mode rex needed = .error e) :
    ¬ (rex = .empty ∧ needed = false) ∧
      (mode ≠ .bit64 ∧ e = .unsupportedInMode mnemonic mode ∨
        mode = .bit64 ∧ ∃ r, e = .highByteWithRex r ∧ r.isHighByte ∧ .register r ∈ operands) := by
  unfold rexBytes at h
  split at h
  · cases h
  next hneeded =>
    refine ⟨by simpa using hneeded, ?_⟩
    split at h
    next hlegacy =>
      cases h
      exact .inl ⟨hlegacy, rfl⟩
    next hlong =>
      split at h
      next r hr =>
        cases h
        obtain ⟨op, hop, hhigh⟩ := List.exists_of_findSome?_eq_some hr
        refine .inr ⟨Decidable.not_not.mp hlong, r, rfl, ?_⟩
        cases op with
        | register r' =>
          simp only [Operand.highByte?, Option.ite_none_right_eq_some, Option.some.injEq] at hhigh
          obtain ⟨hhigh, rfl⟩ := hhigh
          exact ⟨hhigh, hop⟩
        | immediate | memory | offset | branch => cases hhigh
      · cases h

/-- The parts of an encoded instruction. -/
theorem encode_eq_ok {bytes : List UInt8} {fields : List Field} :
    f.encode mnemonic operands mode = .ok (bytes, fields) ↔
      ∃ segment size address tail rex,
        segmentBytes operands = .ok segment ∧ addressSize? operands mode = .ok size ∧
        addressBytes mode size = .ok address ∧
        operandBytes (f.assign operands) (size.getD mode.addressSize) mode = .ok tail ∧
        rexBytes mnemonic operands mode ((f.assign operands).rex.union tail.rex)
          (f.assign operands).needsRex = .ok rex ∧
        segment ++ f.sizeBytes mode ++ address ++ rex ++ (f.assign operands).opcode ++ tail.bytes =
          bytes ∧
        tail.displacement.toList ++ f.operandFields operands (size.getD mode.addressSize) =
          fields := by
  unfold encode
  simp only [exceptBind_eq_ok, Except.ok.injEq, Prod.mk.injEq]
  grind

/-- Encoding fails at the memory operand or at the REX prefix. -/
theorem encode_eq_error {e : EncodeError} (h : f.encode mnemonic operands mode = .error e) :
    (e.IsOfAddress ∧ ∃ op ∈ operands, op.addressesMemory) ∨
      ∃ size tail, operandBytes (f.assign operands) size mode = .ok tail ∧
        rexBytes mnemonic operands mode ((f.assign operands).rex.union tail.rex)
          (f.assign operands).needsRex = .error e := by
  have hmemory (hparts : segmentBytes operands ≠ .ok [] ∨ addressSize? operands mode ≠ .ok none) :
      ∃ op ∈ operands, op.addressesMemory := by
    refine Decidable.byContradiction fun hnone => ?_
    obtain ⟨hsegment, hsize⟩ := addressSize?_of_no_memory (by simpa using hnone) mode
    exact hparts.elim (· hsegment) (· hsize)
  unfold encode at h
  simp only [exceptBind_eq_error] at h
  rcases h with h | ⟨_, -, h | ⟨size, hsize, h | ⟨_, -, h | ⟨tail, htail, h | ⟨_, -, h⟩⟩⟩⟩⟩
  · exact .inl ⟨segmentBytes_isOfAddress h, hmemory (.inl (by simp [h]))⟩
  · exact .inl ⟨addressSize?_isOfAddress h, hmemory (.inr (by simp [h]))⟩
  · refine .inl ⟨addressBytes_isOfAddress h, hmemory (.inr fun hnone => ?_)⟩
    rw [hsize] at hnone
    cases hnone
    cases h
  · obtain ⟨haddress, m, hm⟩ := operandBytes_eq_error h
    exact .inl ⟨haddress, _, mem_of_assign_rm hm, rfl⟩
  · exact .inr ⟨_, tail, htail, h⟩
  · cases h

/-! ## The need for a REX prefix -/

namespace Fits

variable {slot : Slot}

/-- A memory operand is in ModRM.rm. -/
theorem isRm_of_memory {m : Address} (h : f.Fits operands slot (.memory m))
    (hsound : slot.isSound) :
    slot.isRm := by
  obtain ⟨known, h⟩ := h
  obtain ⟨shape, placement⟩ := slot
  unfold acceptsOperand at h
  cases shape <;> cases placement <;> simp_all [Slot.isRm, Slot.isSound]

/-- A register that the opcode implies is the one that the slot fixes. -/
theorem fixed?_of_implied {r : Register} (h : f.Fits operands slot (.register r))
    (hsound : slot.isSound) (hplace : slot.placement = .implied) :
    slot.shape.fixed? = some r := by
  obtain ⟨known, h⟩ := h
  obtain ⟨shape, placement⟩ := slot
  unfold acceptsOperand at h
  cases shape <;> simp_all [Slot.isSound, Shape.fixed?]

end Fits

theorem mem_of_mem_registersAt {p : Placement} {r : Register}
    (h : r ∈ Assignment.registersAt (f.pair operands) p) :
    ∃ slot, (slot, .register r) ∈ f.pair operands ∧ slot.placement = p := by
  obtain ⟨⟨slot, op⟩, hpair, hr⟩ := List.mem_filterMap.1 h
  cases op with
  | register r' =>
    simp only [Option.ite_none_right_eq_some, Option.some.injEq] at hr
    obtain ⟨hplace, rfl⟩ := hr
    exact ⟨slot, hpair, hplace⟩
  | immediate | memory | offset | branch => cases hr

/-- The extension bits of the registers in the opcode and in ModRM.reg. -/
theorem assign_rex_eq_empty_iff :
    (f.assign operands).rex = .empty ↔ f.wideRex = .empty ∧
      ∀ slot r, (slot, .register r) ∈ f.pair operands →
        slot.placement = .opcode ∨ slot.placement = .reg → r.isExtended = false := by
  have hbits : (f.assign operands).rex = .empty ↔ f.wideRex = .empty ∧
      (∀ r ∈ Assignment.registersAt (f.pair operands) .reg, r.isExtended = false) ∧
      ∀ r ∈ Assignment.registersAt (f.pair operands) .opcode, r.isExtended = false := by
    rw [assign_eq, Assignment.placeAll, Rex.union_eq_empty]
    simp [Rex.empty]
  rw [hbits]
  refine and_congr_right fun _ => ⟨?_, fun h => ⟨?_, ?_⟩⟩
  · rintro ⟨hreg, hopcode⟩ slot r hpair (hplace | hplace)
    · exact hopcode r (hplace ▸ Assignment.mem_registersAt hpair)
    · exact hreg r (hplace ▸ Assignment.mem_registersAt hpair)
  · intro r hr
    obtain ⟨slot, hpair, hplace⟩ := mem_of_mem_registersAt hr
    exact h slot r hpair (.inr hplace)
  · intro r hr
    obtain ⟨slot, hpair, hplace⟩ := mem_of_mem_registersAt hr
    exact h slot r hpair (.inl hplace)

theorem assign_needsRex_eq_false_iff (hlength : f.slots.length = operands.length) :
    (f.assign operands).needsRex = false ↔ ∀ op ∈ operands, Assignment.isRexByte op = false := by
  have hoperands := map_snd_pair hlength
  conv => rhs; rw [← hoperands]
  simp only [assign_eq, Assignment.placeAll, Bool.false_or, List.any_eq_false, List.forall_mem_map,
    Bool.not_eq_true]

/-- The registers that an opcode implies have low numbers. -/
theorem isExtended_of_fixed : ∀ f ∈ OpcodeTable.forms, ∀ slot ∈ f.slots,
    slot.shape.fixed?.any Register.isExtended = false := by
  decide +kernel

/-- An instruction does without a REX prefix if its form and every operand does. -/
theorem Takes.rex_eq_empty_iff (h : f.Takes operands) (hf : f ∈ OpcodeTable.forms)
    {size : DataSize} {tail : EncodedAddress}
    (htail : operandBytes (f.assign operands) size mode = .ok tail) :
    ((f.assign operands).rex.union tail.rex = .empty ∧ (f.assign operands).needsRex = false) ↔
      f.wideRex = .empty ∧ ∀ op ∈ operands, op.needsRex = false := by
  rw [Rex.union_eq_empty, assign_rex_eq_empty_iff, operandBytes_rex_eq_empty_iff htail,
    assign_needsRex_eq_false_iff h.length_eq]
  constructor
  · rintro ⟨⟨⟨hwide, hplaced⟩, hrm⟩, hbytes⟩
    refine ⟨hwide, fun op hop => ?_⟩
    obtain ⟨slot, hpair⟩ := h.exists_slot hop
    have hextended : op.isExtended = false := by
      cases hisRm : slot.isRm with
      | true => exact hrm op (h.assign_rm hpair hisRm)
      | false =>
        -- a register that ModRM.rm does not name is in another place, or implied
        cases op with
        | register r =>
          have hsound := h.isSound hpair
          have hslot := (h.fits hpair).isRm hsound
          rw [hisRm] at hslot
          cases hplace : slot.placement with
          | opcode => exact hplaced slot r hpair (.inl hplace)
          | reg => exact hplaced slot r hpair (.inr hplace)
          | standard => simp [hplace, Operand.isRm] at hslot
          | implied =>
            have hfixed := isExtended_of_fixed f hf slot (List.of_mem_zip hpair).1
            rw [(h.fits hpair).fixed?_of_implied hsound hplace] at hfixed
            exact hfixed
        | memory m => simp [(h.fits hpair).isRm_of_memory (h.isSound hpair)] at hisRm
        | immediate | offset | branch => rfl
    simp only [Operand.needsRex, hextended, Bool.false_or]
    exact hbytes op hop
  · rintro ⟨hwide, hall⟩
    have hextended (op : Operand) (hop : op ∈ operands) : op.isExtended = false := by
      have hneeds := hall op hop
      simp only [Operand.needsRex, Bool.or_eq_false_iff] at hneeds
      exact hneeds.1
    refine ⟨⟨⟨hwide, ?_⟩, ?_⟩, ?_⟩
    · intro slot r hpair _
      exact hextended _ (List.of_mem_zip hpair).2
    · intro op hop
      exact hextended op (mem_of_assign_rm hop)
    · intro op hop
      have hneeds := hall op hop
      simp only [Operand.needsRex, Bool.or_eq_false_iff] at hneeds
      exact hneeds.2

/-- A form that is valid in a mode without REX does without the prefix. -/
theorem needsRex_of_isValidIn (hmode : mode ≠ .bit64) (h : f.isValidIn operands mode) :
    f.wideRex = .empty ∧ ∀ op ∈ operands, op.needsRex = false := by
  obtain ⟨-, hrepresentable⟩ := (isValidIn_iff_of_ne hmode).1 h
  constructor
  · have hsize : f.operandSize ≠ .bit64 := fun hsize => hrepresentable (.wideOperation hmode hsize)
    simp [wideRex, hsize, Rex.empty]
  · intro op hop
    cases op with
    | register r =>
      have hrex : r.requiresRex = false := by
        rw [← Bool.not_eq_true]
        exact fun hr => hrepresentable (.rexRegister hmode hop hr)
      have hextended : r.isExtended = false := (Bool.or_eq_false_iff.1 hrex).1
      simp [Operand.needsRex, Operand.isExtended, Assignment.isRexByte, hrex, hextended]
    | memory a =>
      have hextended : a.usesExtended = false := by
        rw [← Bool.not_eq_true]
        exact fun ha => hrepresentable (.extendedAddress hmode hop ha)
      simp [Operand.needsRex, Operand.isExtended, Assignment.isRexByte, hextended]
    | immediate | offset | branch => rfl

end Form

namespace Instruction

open Form

variable {i : Instruction} {mode : Mode} {known : KnownValues} {f : Form}

theorem mem_forms_of_select (h : i.select mode known = .ok f) : f ∈ OpcodeTable.forms := by
  obtain ⟨op, hop, -, hf⟩ :=
    OpcodeTable.mem_formsOf.1 (List.mem_of_find?_eq_some (select_eq_ok_iff.1 h))
  exact List.mem_flatMap.2 ⟨op, hop, hf⟩

/-- Outside 64-bit mode a selected instruction asks for no REX prefix. -/
theorem rexBytes_of_select (h : i.select mode known = .ok f) (hmode : mode ≠ .bit64)
    {size : DataSize} {tail : EncodedAddress}
    (htail : operandBytes (f.assign i.operands) size mode = .ok tail) :
    rexBytes i.mnemonic i.operands mode ((f.assign i.operands).rex.union tail.rex)
      (f.assign i.operands).needsRex = .ok [] := by
  obtain ⟨htakes, hvalid⟩ := takes_of_select h
  obtain ⟨hrex, hneeds⟩ := (htakes.rex_eq_empty_iff (mem_forms_of_select h) htail).2
    (needsRex_of_isValidIn hmode hvalid)
  simp [rexBytes, hrex, hneeds]

/-- What can keep a selected instruction from being encoded: its address, or in 64-bit mode a high
byte register beside a REX prefix. -/
theorem encode_error_of_select (h : i.select mode known = .ok f) {e : EncodeError}
    (he : f.encode i.mnemonic i.operands mode = .error e) :
    (∃ r ∈ [Register.ah, .ch, .dh, .bh], e = .highByteWithRex r ∧ mode = .bit64 ∧
      .register r ∈ i.operands) ∨
    (∃ fault, e = .invalidAddress fault ∧ ∃ op ∈ i.operands, op.addressesMemory) := by
  rcases encode_eq_error he with ⟨haddress, hmemory⟩ | ⟨size, tail, htail, hrex⟩
  · cases e with
    | invalidAddress fault => exact .inr ⟨fault, rfl, hmemory⟩
    | _ => cases haddress
  · obtain ⟨-, ⟨hmode, -⟩ | ⟨hmode, r, rfl, hhigh, hr⟩⟩ := rexBytes_eq_error hrex
    · -- outside 64-bit mode nothing has asked for the prefix
      rw [rexBytes_of_select h hmode htail] at hrex
      cases hrex
    · refine .inl ⟨r, ?_, rfl, hmode, hr⟩
      cases r <;> first | decide | cases hhigh

/-- Outside 64-bit mode the fixed bytes of a selected instruction are overrides, the opcode of its
form, and ModRM with what follows it. -/
theorem isOf_of_select (h : i.select mode known = .ok f) (hmode : mode ≠ .bit64)
    {bytes : List UInt8} {fields : List Field}
    (hbytes : f.encode i.mnemonic i.operands mode = .ok (bytes, fields)) :
    ∃ r : Reading, r.IsOf mode f bytes ∧ r.rex = none ∧
      r.opcode = (f.assign i.operands).opcode ∧
      ∃ size tail, operandBytes (f.assign i.operands) size mode = .ok tail ∧
        bytes = r.overrides ++ r.opcode ++ tail.bytes := by
  obtain ⟨htakes, -⟩ := takes_of_select h
  obtain ⟨segment, size, address, tail, rex, hsegment, -, haddress, htail, hrex, rfl, -⟩ :=
    encode_eq_ok.1 hbytes
  rw [rexBytes_of_select h hmode htail] at hrex
  cases hrex
  obtain ⟨modrm, rest, hrest, hshows⟩ :=
    operandBytes_eq_ok htail fun op hop => Takes.isRm_of_assign_rm hop
  have hoverrides := (overridesOf_append f hsegment haddress).isOverride
  have hmodrm : modrm.isSome = f.usesModRM := by rw [hshows.isSome, htakes.assign_usesModRM]
  refine ⟨⟨segment ++ f.sizeBytes mode ++ address, none, (f.assign i.operands).opcode, modrm, rest⟩,
    ⟨?_, hoverrides, nofun, htakes.readsOpcode, hmodrm⟩, rfl, rfl, _, tail, htail, by simp⟩
  simp [Reading.bytes, hrest]

/-- A selected instruction fails to encode only for its address, or in 64-bit mode because a high
byte register stands beside a REX prefix. One with neither a memory operand nor such a register is
encoded, and outside 64-bit mode it is read as an instruction of the selected form without a REX
prefix: nothing but overrides stands before the opcode of the form. -/
theorem encode_of_select (h : i.select mode known = .ok f) :
    (∀ e, f.encode i.mnemonic i.operands mode = .error e →
      (∃ r ∈ [Register.ah, .ch, .dh, .bh], e = .highByteWithRex r ∧ mode = .bit64 ∧
        .register r ∈ i.operands) ∨
      (∃ fault, e = .invalidAddress fault ∧ ∃ op ∈ i.operands, op.addressesMemory)) ∧
    ((∀ op ∈ i.operands, op.addressesMemory = false ∧
        ∀ r ∈ [Register.ah, .ch, .dh, .bh], op ≠ .register r) →
      ∃ bytes fields, f.encode i.mnemonic i.operands mode = .ok (bytes, fields)) ∧
    (mode ≠ .bit64 → ∀ bytes fields, f.encode i.mnemonic i.operands mode = .ok (bytes, fields) →
      ∃ r : Reading, r.IsOf mode f bytes ∧ r.rex = none ∧
        r.opcode = (f.assign i.operands).opcode ∧
        ∃ size tail, operandBytes (f.assign i.operands) size mode = .ok tail ∧
          bytes = r.overrides ++ r.opcode ++ tail.bytes) := by
  refine ⟨fun e he => encode_error_of_select h he, fun hplain => ?_,
    fun hmode bytes fields hbytes => isOf_of_select h hmode hbytes⟩
  cases hencode : f.encode i.mnemonic i.operands mode with
  | ok encoded => exact ⟨encoded.1, encoded.2, rfl⟩
  | error e =>
    rcases encode_error_of_select h hencode with ⟨r, hr, -, -, hmem⟩ | ⟨-, -, op, hop, hmemory⟩
    · exact absurd rfl ((hplain _ hmem).2 r hr)
    · rw [(hplain op hop).1] at hmemory
      cases hmemory

/-- `mov ah, sil`: the source asks for the prefix that the destination cannot stand beside. -/
def mixedBytes : Instruction where
  mnemonic := "mov"
  operands := [.register .ah, .register .sil]

/-- `mov ax, bx`, which 32-bit mode writes with an operand size override. -/
def moveWord : Instruction where
  mnemonic := "mov"
  operands := [.register .ax, .register .bx]

/-- In 64-bit mode the one is selected and fails on its high byte register; in 32-bit mode the other
is read as an instruction of its form without a REX prefix. -/
theorem encode_of_select_moves :
    ((Form.of [0x88] [.rm .bit8, .reg .bit8]).op8.encode "mov" mixedBytes.operands .bit64 =
        .error (.highByteWithRex .ah) ∧
      ∃ r ∈ [Register.ah, .ch, .dh, .bh], EncodeError.highByteWithRex .ah = .highByteWithRex r ∧
        .register r ∈ mixedBytes.operands) ∧
    ∃ bytes fields, (Form.of [0x89] [.rm .bit16, .reg .bit16]).op16.encode "mov"
        moveWord.operands .bit32 = .ok (bytes, fields) ∧
      ∃ r : Reading, r.IsOf .bit32 (Form.of [0x89] [.rm .bit16, .reg .bit16]).op16 bytes ∧
        r.rex = none ∧ r.opcode = [0x89] := by
  have hmixed : mixedBytes.select .bit64 [] =
      .ok (Form.of [0x88] [.rm .bit8, .reg .bit8]).op8 := eq_ok_of_toOption (by decide +kernel)
  have hword : moveWord.select .bit32 [] =
      .ok (Form.of [0x89] [.rm .bit16, .reg .bit16]).op16 := eq_ok_of_toOption (by decide +kernel)
  obtain ⟨herror, -, -⟩ := encode_of_select hmixed
  obtain ⟨-, hencode, hbytes⟩ := encode_of_select hword
  have hfails : (Form.of [0x88] [.rm .bit8, .reg .bit8]).op8.encode "mov" mixedBytes.operands
      .bit64 = .error (.highByteWithRex .ah) := rfl
  constructor
  · rcases herror _ hfails with ⟨r, hr, heq, -, hmem⟩ | ⟨_, heq, -⟩
    · exact ⟨hfails, r, hr, heq, hmem⟩
    · cases heq
  · obtain ⟨bytes, fields, hencode⟩ := hencode (by simp [moveWord, Operand.addressesMemory])
    obtain ⟨r, hread, hrex, hopcode, -⟩ := hbytes (by decide) bytes fields hencode
    exact ⟨bytes, fields, hencode, r, hread, hrex, hopcode⟩

end Instruction

end Assembler
