import Assembler.Proofs.Encodability
import Assembler.Proofs.Immediates

/-!
# Lengths of instructions

How many bytes an instruction has, with its fields. A form settles the length of everything but the
memory operand and the prefixes that come with the operands (`Form.length`): its opcode, its ModRM
byte, an override of the operand size, and its immediates and branch distances. A memory operand or
a direct offset adds to that what `Form.addressRoom` allows for.

From this and from the opcode table follows the processor's limit of 15 bytes. In the same way the
fields are looked at: the displacement or the direct offset, of which there is one at most, and then
the numbers. Main statement: `Instruction.encode_isWithinLimits`.
-/

namespace Assembler

theorem Encoded.fieldsLength_append (fields more : List Field) :
    fieldsLength (fields ++ more) = fieldsLength fields + fieldsLength more := by
  induction fields with
  | nil => rw [List.nil_append, fieldsLength, Nat.zero_add]
  | cons f fields ih => rw [List.cons_append, fieldsLength, fieldsLength, ih, Nat.add_assoc]

/-- Number of bytes of the immediate or branch distance that a shape takes. -/
def Shape.numberLength (s : Shape) : Nat := if s.isTrailing then s.size.bytes else 0

/-- Whether a shape takes a direct offset. -/
def Shape.isOffset : Shape → Bool
  | .offset _ => true
  | _ => false

/-- Number of bytes of a direct offset. -/
def Operand.offsetLength (size : DataSize) : Operand → Nat
  | .offset _ => size.bytes
  | _ => 0

/-- A field that addresses memory: a displacement, or a direct offset. -/
inductive Field.IsAddress (operands : List Operand) (f : Field) : Prop
  | displacement {a : Address} (ha : .memory a ∈ operands) (hf : a.IsDisplacement f)
  | offset {k : Nat} {m : DirectOffset} (hm : operands[k]? = some (.offset m))
      (hoperand : f.operand = some k) (hexpr : f.expr = m.address)

/-- A field that holds an immediate, or the distance to the target of a branch. -/
def Field.IsNumber (operands : List Operand) (f : Field) : Prop :=
  ∃ k op, operands[k]? = some op ∧ op.isNumber ∧ f.operand = some k ∧ op.exprs = [f.expr]

/-- An encoded instruction that a processor can read: 1 to 15 bytes, one field for an address at
most, which comes before the numbers, and fields of 1, 2, 4 or 8 bytes. -/
structure Encoded.IsWithinLimits (operands : List Operand) (e : Encoded) : Prop where
  pos : 1 ≤ e.length
  le : e.length ≤ 15
  fields : ∃ (address : Option Field) (numbers : List Field), e.fields = address.toList ++ numbers ∧
    (∀ f ∈ address, f.IsAddress operands) ∧ ∀ f ∈ numbers, f.IsNumber operands
  widths : ∀ f ∈ e.fields, f.size.bytes ∈ [1, 2, 4, 8]

/-! ## Addresses -/

namespace Address

variable {a : Address} {size : DataSize} {reg : BitVec 3} {mode : Mode}

theorem length_encodeBaseless (scale : BitVec 2) (rex : Rex) :
    (a.encodeBaseless size reg mode scale rex).bytes.length =
      if a.index.isSome ∨ mode = .bit64 then 2 else 1 := by
  cases hindex : a.index with
  | some index => simp [encodeBaseless, hindex]
  | none =>
    simp only [encodeBaseless, hindex, Option.isSome_none, Bool.false_eq_true, false_or]
    split <;> rfl

theorem length_encodeBased (base : Register) (scale : BitVec 2) (rex : Rex) :
    (a.encodeBased base size reg scale rex).bytes.length =
      if a.index.isSome ∨ base.low = 0b100 then 2 else 1 := by
  cases hindex : a.index with
  | some index => simp [encodeBased, hindex]
  | none =>
    simp only [encodeBased, hindex, Option.isSome_none, Bool.false_eq_true, false_or]
    split <;> rfl

/-- The bytes of an address are ModRM and perhaps SIB. -/
theorem length_encode {enc : EncodedAddress} (h : a.encode size reg mode = .ok enc) :
    enc.bytes.length ≤ 2 := by
  by_cases hsize : size = .bit16
  · rw [encode, if_pos hsize, encode16_eq_ok] at h
    obtain ⟨-, ⟨-, -, rfl⟩ | ⟨-, rm, -, rfl⟩⟩ := h
    · exact Nat.le_succ 1
    · exact Nat.le_succ 1
  · obtain ⟨-, -, -, rfl⟩ | ⟨-, -, scale, -, ⟨-, rfl⟩ | ⟨base, -, rfl⟩⟩ := (encode_eq_ok hsize).1 h
    · exact Nat.le_succ 1
    · rw [length_encodeBaseless]
      split <;> decide
    · rw [length_encodeBased]
      split <;> decide

end Address

/-! ## Forms -/

namespace Form

/-- Number of bytes of immediates and branch distances. -/
def numbersLength : List Slot → Nat
  | [] => 0
  | slot :: slots => slot.shape.numberLength + numbersLength slots

/-- Number of bytes of direct offsets. -/
def offsetsLength (size : DataSize) : List Operand → Nat
  | [] => 0
  | op :: operands => op.offsetLength size + offsetsLength size operands

/-- Number of bytes that an instruction of the form has without a REX prefix and without what
addresses memory. -/
def length (f : Form) (mode : Mode) : Nat :=
  (f.sizeBytes mode).length + f.opcode.length + f.usesModRM.toNat + numbersLength f.slots

/-- Number of bytes that an operand in memory can add: overrides of segment and address size, and
either a direct offset or SIB and a displacement. -/
def addressRoom (f : Form) : Nat :=
  if f.slots.any (·.shape.isOffset) then 10 else if f.slots.any Slot.takesMemory then 7 else 0

/-- Number of bytes that an instruction of the form has at most. -/
def maxLength (f : Form) (mode : Mode) : Nat :=
  f.length mode + f.addressRoom + if mode = .bit64 then 1 else 0

/-! ## The parts -/

section Parts

variable {f : Form} {operands : List Operand} {mode : Mode} {size : DataSize}

theorem contains_of_isValidIn (h : f.isValidIn operands mode) : f.modes.contains mode := by
  simp only [isValidIn, Bool.and_eq_true] at h
  exact h.1

theorem length_segmentBytes {bytes : List UInt8} (h : segmentBytes operands = .ok bytes) :
    bytes.length ≤ 1 := by
  unfold segmentBytes at h
  split at h
  · cases h
    exact Nat.zero_le 1
  · split at h <;> cases h
    exact Nat.le_refl 1

theorem length_addressBytes {size : Option DataSize} {bytes : List UInt8}
    (h : addressBytes mode size = .ok bytes) : bytes.length ≤ 1 := by
  unfold addressBytes at h
  split at h
  · cases h
    exact Nat.zero_le 1
  · split at h <;> cases h <;> decide

/-- There is at most one REX prefix, and none outside 64-bit mode. -/
theorem length_rexBytes {mnemonic : String} {rex : Rex} {needed : Bool} {bytes : List UInt8}
    (h : rexBytes mnemonic operands mode rex needed = .ok bytes) :
    bytes.length ≤ if mode = .bit64 then 1 else 0 := by
  unfold rexBytes at h
  split at h
  · cases h
    exact Nat.zero_le _
  split at h
  · cases h
  next hmode =>
    rw [if_pos (Decidable.not_not.1 hmode)]
    split at h <;> cases h
    exact Nat.le_refl 1

theorem fieldsLength_displacement {a : Assignment} {tail : EncodedAddress}
    (h : operandBytes a size mode = .ok tail) :
    Encoded.fieldsLength tail.displacement.toList ≤ 4 := by
  cases hfield : tail.displacement with
  | none => exact Nat.zero_le 4
  | some field =>
    obtain ⟨m, -, hm⟩ := operandBytes_isDisplacement h hfield
    have hwidth := hm.size
    simp only [List.mem_cons, List.not_mem_nil, or_false] at hwidth
    simp only [Option.toList_some, Encoded.fieldsLength]
    omega

theorem Fits.isOffset {slot : Slot} {m : DirectOffset} (h : f.Fits operands slot (.offset m)) :
    slot.shape.isOffset := by
  obtain ⟨known, h⟩ := h
  unfold acceptsOperand at h
  cases hshape : slot.shape <;> simp_all [Shape.isOffset]

/-- A number has the length that its slot gives it, a direct offset that of addresses. -/
theorem Fits.fieldsLength {slot : Slot} {op : Operand} (h : f.Fits operands slot op)
    (size : DataSize) :
    Encoded.fieldsLength (f.operandField? size slot op).toList =
      slot.shape.numberLength + op.offsetLength size := by
  obtain ⟨known, h⟩ := h
  unfold acceptsOperand at h
  cases hshape : slot.shape <;> cases op <;>
    simp_all [operandField?, Encoded.fieldsLength, Shape.numberLength, Shape.isTrailing,
      Operand.offsetLength, Field.absolute, Field.relative]
  split <;> rfl

/-- The fields of operands take the bytes of immediates, branch distances and direct offsets. -/
theorem fieldsLength_filterMap {pairs : List (Slot × Operand)}
    (hfits : ∀ pair ∈ pairs, f.Fits operands pair.1 pair.2) (size : DataSize) (k : Nat) :
    Encoded.fieldsLength ((pairs.zipIdx k).filterMap fun ((slot, op), i) =>
        (f.operandField? size slot op).map (·.ofOperand i)) =
      numbersLength (pairs.map Prod.fst) + offsetsLength size (pairs.map Prod.snd) := by
  induction pairs generalizing k with
  | nil => rfl
  | cons pair pairs ih =>
    obtain ⟨slot, op⟩ := pair
    obtain ⟨hpair, hpairs⟩ := List.forall_mem_cons.1 hfits
    have hfirst := hpair.fieldsLength size
    rw [List.zipIdx_cons, List.map_cons, List.map_cons, numbersLength, offsetsLength]
    cases hfield : f.operandField? size slot op with
    | none =>
      rw [hfield, Option.toList_none, Encoded.fieldsLength] at hfirst
      rw [List.filterMap_cons_none (by simp [hfield]), ih hpairs]
      omega
    | some field =>
      rw [hfield, Option.toList_some, Encoded.fieldsLength, Encoded.fieldsLength] at hfirst
      have hsize : (field.ofOperand k).size = field.size := rfl
      rw [List.filterMap_cons_some (b := field.ofOperand k) (by simp [hfield]),
        Encoded.fieldsLength, ih hpairs, hsize]
      omega

namespace Takes

theorem fieldsLength_operandFields (h : f.Takes operands) (size : DataSize) :
    Encoded.fieldsLength (f.operandFields operands size) =
      numbersLength f.slots + offsetsLength size operands := by
  have hfields := fieldsLength_filterMap (fun pair hpair => h.fits hpair) size 0
  rwa [map_fst_pair h.length_eq, map_snd_pair h.length_eq] at hfields

theorem length_opcode (h : f.Takes operands) :
    (f.assign operands).opcode.length = f.opcode.length :=
  length_of_readsOpcode h.readsOpcode

theorem assign_rm_of_memory (h : f.Takes operands) {m : Address} (hm : .memory m ∈ operands) :
    (f.assign operands).rm = some (.memory m) ∧ f.usesModRM := by
  obtain ⟨slot, hpair⟩ := h.exists_slot hm
  have hrm := h.assign_rm hpair ((h.fits hpair).isRm_of_memory (h.isSound hpair))
  exact ⟨hrm, by simp [← h.assign_usesModRM, hrm]⟩

/-- Without a memory operand there is a ModRM byte, or nothing. -/
theorem operandBytes_of_no_memory (h : f.Takes operands) (hnone : ∀ m, .memory m ∉ operands)
    (size : DataSize) (mode : Mode) :
    ∃ tail, operandBytes (f.assign operands) size mode = .ok tail ∧
      tail.bytes.length = f.usesModRM.toNat ∧ tail.displacement = none := by
  rw [← h.assign_usesModRM]
  unfold operandBytes
  cases hrm : (f.assign operands).rm with
  | none => exact ⟨_, rfl, by cases (f.assign operands).reg <;> rfl, rfl⟩
  | some op =>
    cases op with
    | register r => exact ⟨_, rfl, by simp, rfl⟩
    | memory m => exact absurd (mem_of_assign_rm hrm) (hnone m)
    | immediate | offset | branch => cases isRm_of_assign_rm hrm

end Takes

theorem offsetsLength_eq (size : DataSize) (operands : List Operand) :
    offsetsLength size operands = operands.countP (·.offset?.isSome) * size.bytes := by
  induction operands with
  | nil => simp [offsetsLength]
  | cons op operands ih =>
    rw [offsetsLength, ih, List.countP_cons, Nat.add_mul, Nat.add_comm]
    cases op <;> simp [Operand.offsetLength, Operand.offset?]

theorem offsetsLength_of_no_offset (h : ∀ m, .offset m ∉ operands) (size : DataSize) :
    offsetsLength size operands = 0 := by
  have hnone : operands.countP (·.offset?.isSome) = 0 := by
    refine List.countP_eq_zero.2 fun op hop => ?_
    cases op with
    | offset m => exact absurd hop (h m)
    | register | immediate | memory | branch => exact Bool.false_ne_true
  rw [offsetsLength_eq, hnone, Nat.zero_mul]

/-- Of direct offsets there is one at most. -/
theorem Takes.offsetsLength_le (h : f.Takes operands) (size : DataSize) :
    offsetsLength size operands ≤ size.bytes := by
  have hle : operands.countP (·.offset?.isSome) ≤ operands.countP Operand.addressesMemory := by
    refine List.countP_mono_left fun op _ hop => ?_
    cases op with
    | offset m => rfl
    | register | immediate | memory | branch => cases hop
  have hone := Nat.mul_le_mul_right size.bytes (Nat.le_trans hle h.countP_addressesMemory)
  rwa [Nat.one_mul, ← offsetsLength_eq] at hone

end Parts

/-! ## The whole -/

/-- No form of the opcode table is longer than 15 bytes. -/
theorem maxLength_le {f : Form} (hf : f ∈ OpcodeTable.forms) {mode : Mode}
    (hmode : f.modes.contains mode) : f.maxLength mode ≤ 15 := by
  have htable : ∀ f ∈ OpcodeTable.forms, ∀ mode ∈ [Mode.bit16, .bit32, .bit64],
      f.modes.contains mode → f.maxLength mode ≤ 15 := by
    decide +kernel
  exact htable f hf mode (by cases mode <;> decide) hmode

/-- A form with a direct offset has no numbers. -/
theorem isTrailing_of_isOffset : ∀ f ∈ OpcodeTable.forms, f.slots.any (·.shape.isOffset) →
    f.slots.any (·.shape.isTrailing) = false := by
  decide +kernel

section Whole

variable {f : Form} {mnemonic : String} {operands : List Operand} {mode : Mode} {bytes : List UInt8}
  {fields : List Field}

namespace Takes

/-- An instruction has a memory operand, or a direct offset, or neither. -/
theorem memory_cases (h : f.Takes operands) :
    (∃ m, .memory m ∈ operands ∧ ∀ d, .offset d ∉ operands) ∨
      (∃ d, .offset d ∈ operands ∧ ∀ m, .memory m ∉ operands) ∨
      ∀ op ∈ operands, op.addressesMemory = false := by
  by_cases hmemory : ∃ m, .memory m ∈ operands
  · obtain ⟨m, hm⟩ := hmemory
    exact .inl ⟨m, hm, fun d hd => nomatch h.eq_of_addressesMemory hm rfl hd rfl⟩
  · have hno (m : Address) : .memory m ∉ operands := fun hm => hmemory ⟨m, hm⟩
    by_cases hoffset : ∃ d, .offset d ∈ operands
    · obtain ⟨d, hd⟩ := hoffset
      exact .inr (.inl ⟨d, hd, hno⟩)
    · refine .inr (.inr fun op hop => ?_)
      cases op with
      | memory m => exact absurd hop (hno m)
      | offset d => exact absurd ⟨d, hop⟩ hoffset
      | register | immediate | branch => rfl

theorem le_addressRoom_of_memory (h : f.Takes operands) {m : Address} (hm : .memory m ∈ operands) :
    7 ≤ f.addressRoom := by
  obtain ⟨slot, hpair⟩ := h.exists_slot hm
  have hany : f.slots.any Slot.takesMemory :=
    List.any_eq_true.2 ⟨slot, (List.of_mem_zip hpair).1, (h.fits hpair).takesMemory rfl⟩
  rw [addressRoom, if_pos hany]
  split <;> decide

theorem any_isOffset (h : f.Takes operands) {d : DirectOffset} (hd : .offset d ∈ operands) :
    f.slots.any (·.shape.isOffset) := by
  obtain ⟨slot, hpair⟩ := h.exists_slot hd
  exact List.any_eq_true.2 ⟨slot, (List.of_mem_zip hpair).1, (h.fits hpair).isOffset⟩

/-- An instruction has its opcode, and what its form has room for. -/
theorem encode_length (h : f.Takes operands)
    (hencode : f.encode mnemonic operands mode = .ok (bytes, fields)) :
    f.opcode.length ≤ bytes.length ∧
      bytes.length + Encoded.fieldsLength fields ≤ f.maxLength mode := by
  obtain ⟨segment, size, address, tail, rex, hsegment, hsize, haddress, htail, hrex, rfl, rfl⟩ :=
    encode_eq_ok.1 hencode
  have hsegments := length_segmentBytes hsegment
  have haddresses := length_addressBytes haddress
  have hprefix := length_rexBytes hrex
  simp only [List.length_append, Encoded.fieldsLength_append, h.length_opcode,
    h.fieldsLength_operandFields, maxLength, Form.length]
  refine ⟨by omega, ?_⟩
  rcases h.memory_cases with ⟨m, hm, hnone⟩ | ⟨d, hd, hnone⟩ | hnone
  · obtain ⟨hrm, hmodrm⟩ := h.assign_rm_of_memory hm
    have hroom := h.le_addressRoom_of_memory hm
    have hdisplacement := fieldsLength_displacement htail
    simp only [operandBytes, hrm] at htail
    have hbytes := Address.length_encode htail
    rw [offsetsLength_of_no_offset hnone, hmodrm, Bool.toNat_true]
    omega
  · obtain ⟨tail', htail', hbytes, hdisplacement⟩ :=
      h.operandBytes_of_no_memory hnone (size.getD mode.addressSize) mode
    cases htail.symm.trans htail'
    have hroom : f.addressRoom = 10 := if_pos (h.any_isOffset hd)
    have hoffset := h.offsetsLength_le (size.getD mode.addressSize)
    have hwidth := addressBytes_size haddress
    simp only [List.mem_cons, List.not_mem_nil, or_false] at hwidth
    rw [hbytes, hdisplacement, hroom, Option.toList_none, Encoded.fieldsLength]
    omega
  · obtain ⟨hsegment', hsize'⟩ := addressSize?_of_no_memory hnone mode
    cases hsegment.symm.trans hsegment'
    cases hsize.symm.trans hsize'
    cases haddress
    have hnone' (m : Address) : .memory m ∉ operands := by
      intro hm
      cases hnone _ hm
    have hoffsets (d : DirectOffset) : .offset d ∉ operands := by
      intro hd
      cases hnone _ hd
    obtain ⟨tail', htail', hbytes, hdisplacement⟩ :=
      h.operandBytes_of_no_memory hnone' mode.addressSize mode
    cases htail.symm.trans htail'
    rw [hbytes, hdisplacement, offsetsLength_of_no_offset hoffsets, Option.toList_none,
      Encoded.fieldsLength, List.length_nil]
    omega

theorem not_isNumber (h : f.Takes operands) (hnumbers : f.slots.any (·.shape.isTrailing) = false)
    {op : Operand} (hop : op ∈ operands) : op.isNumber = false := by
  obtain ⟨slot, hpair⟩ := h.exists_slot hop
  rw [← Bool.not_eq_true]
  intro hnumber
  exact List.any_eq_false.1 hnumbers slot (List.of_mem_zip hpair).1
    ((h.fits hpair).isTrailing hnumber)

/-- Without numbers the operands leave one field at most. -/
theorem length_operandFields_le (h : f.Takes operands)
    (hnumbers : f.slots.any (·.shape.isTrailing) = false) (size : DataSize) :
    (f.operandFields operands size).length ≤ 1 := by
  refine Nat.le_trans ?_ h.countP_addressesMemory
  have hcount : operands.countP Operand.addressesMemory =
      (f.pair operands).zipIdx.countP fun p => p.1.2.addressesMemory := by
    conv => lhs; rw [← map_snd_pair h.length_eq, ← List.zipIdx_map_fst 0 (f.pair operands)]
    rw [List.countP_map, List.countP_map]
    rfl
  rw [operandFields, List.length_filterMap_eq_countP, hcount]
  refine List.countP_mono_left ?_
  rintro ⟨⟨slot, op⟩, i⟩ hmem hfield
  have hop := (List.of_mem_zip (List.fst_mem_of_mem_zipIdx hmem)).2
  cases op with
  | register | memory => cases hfield
  | offset d => rfl
  | immediate | branch => cases h.not_isNumber hnumbers hop

end Takes

/-- The field of an operand holds a number or a direct offset. -/
theorem isNumber_of_mem_operandFields {size : DataSize} {field : Field}
    (h : field ∈ f.operandFields operands size) :
    field.IsNumber operands ∨ field.IsAddress operands ∧ ∃ d, .offset d ∈ operands := by
  obtain ⟨k, slot, op, plain, hpair, hplain, rfl⟩ := mem_operandFields.1 h
  have hop := (List.getElem?_zip_eq_some.1 hpair).2
  cases op with
  | register | memory => cases hplain
  | offset d =>
    cases hplain
    exact .inr ⟨.offset hop rfl rfl, d, List.mem_of_getElem? hop⟩
  | branch b =>
    cases hplain
    exact .inl ⟨k, _, hop, rfl, rfl, rfl⟩
  | immediate imm =>
    simp only [operandField?, Option.some.injEq] at hplain
    subst hplain
    refine .inl ⟨k, _, hop, rfl, rfl, ?_⟩
    split <;> rfl

namespace Takes

/-- The fields of an instruction are what addresses memory, of which there is one at most, and then
the numbers. -/
theorem encode_fields (h : f.Takes operands) (hf : f ∈ OpcodeTable.forms)
    (hencode : f.encode mnemonic operands mode = .ok (bytes, fields)) :
    ∃ (address : Option Field) (numbers : List Field), fields = address.toList ++ numbers ∧
      (∀ field ∈ address, field.IsAddress operands) ∧
      ∀ field ∈ numbers, field.IsNumber operands := by
  obtain ⟨_, size, _, tail, _, -, -, -, htail, -, -, rfl⟩ := encode_eq_ok.1 hencode
  by_cases hoffset : ∃ d, .offset d ∈ operands
  · -- the direct offset is the only field
    obtain ⟨d, hd⟩ := hoffset
    have hnumbers := isTrailing_of_isOffset f hf (h.any_isOffset hd)
    have hnone (m : Address) : .memory m ∉ operands :=
      fun hm => nomatch h.eq_of_addressesMemory hd rfl hm rfl
    obtain ⟨tail', htail', -, hdisplacement⟩ :=
      h.operandBytes_of_no_memory hnone (size.getD mode.addressSize) mode
    cases htail.symm.trans htail'
    have hlength := h.length_operandFields_le hnumbers (size.getD mode.addressSize)
    have hfields {field : Field}
        (hfield : field ∈ f.operandFields operands (size.getD mode.addressSize)) :
        field.IsAddress operands := by
      rcases isNumber_of_mem_operandFields hfield with ⟨k, op, hop, hnumber, -⟩ | ⟨haddress, -⟩
      · rw [h.not_isNumber hnumbers (List.mem_of_getElem? hop)] at hnumber
        cases hnumber
      · exact haddress
    have hhead : f.operandFields operands (size.getD mode.addressSize) =
        (f.operandFields operands (size.getD mode.addressSize)).head?.toList := by
      rw [← List.take_one, List.take_of_length_le hlength]
    refine ⟨(f.operandFields operands (size.getD mode.addressSize)).head?, [], ?_,
      fun field hfield => hfields (List.mem_of_head? hfield), by simp⟩
    rw [hdisplacement, ← hhead, Option.toList_none, List.nil_append, List.append_nil]
  · refine ⟨tail.displacement, _, rfl, fun field hfield => ?_, fun field hfield => ?_⟩
    · obtain ⟨m, hm, hdisplacement⟩ := operandBytes_isDisplacement htail hfield
      exact .displacement (mem_of_assign_rm hm) hdisplacement
    · exact (isNumber_of_mem_operandFields hfield).resolve_right fun haddress => hoffset haddress.2

/-- Every field of an instruction has 1, 2, 4 or 8 bytes. -/
theorem encode_widths (h : f.Takes operands) (hf : f ∈ OpcodeTable.forms)
    (hencode : f.encode mnemonic operands mode = .ok (bytes, fields)) :
    ∀ field ∈ fields, field.size.bytes ∈ [1, 2, 4, 8] := by
  obtain ⟨_, size, _, tail, _, -, -, haddress, htail, -, -, rfl⟩ := encode_eq_ok.1 hencode
  intro field hfield
  rcases List.mem_append.1 hfield with hfield | hfield
  · obtain ⟨m, -, hdisplacement⟩ := operandBytes_isDisplacement htail (by simpa using hfield)
    have hwidth := hdisplacement.size
    simp only [List.mem_cons, List.not_mem_nil, or_false] at hwidth ⊢
    omega
  · obtain ⟨k, slot, op, plain, hpair, hplain, rfl⟩ := mem_operandFields.1 hfield
    have hpair := List.mem_of_getElem? hpair
    obtain ⟨opcode, hopcode, hform⟩ := List.mem_flatMap.1 hf
    have hwidths := size_of_isTrailing opcode hopcode f hform slot (List.of_mem_zip hpair).1
    exact (operandField?_eq_some (addressBytes_size haddress) (h.fits hpair) hwidths hplain).2

end Takes

end Whole

end Form

/-! ## Instructions -/

namespace Instruction

open Form

/-- Every encoded instruction is one that a processor can read. -/
theorem isWithinLimits_of_encode {i : Instruction} {mode : Mode} {known : KnownValues} {e : Encoded}
    (h : i.encode mode known = .ok e) : e.IsWithinLimits i.operands := by
  obtain ⟨f, hselect, h⟩ := exceptBind_eq_ok.1 h
  obtain ⟨⟨bytes, fields⟩, hencode, h⟩ := exceptBind_eq_ok.1 h
  cases h
  obtain ⟨htakes, hvalid⟩ := takes_of_select hselect
  have hf := mem_forms_of_select hselect
  obtain ⟨hopcode, hlength⟩ := htakes.encode_length hencode
  have hpos := List.length_pos_iff.2 htakes.readable.opcode_ne_nil
  exact {
    pos := Nat.le_trans (Nat.le_trans hpos hopcode) (Nat.le_add_right _ _)
    le := Nat.le_trans hlength (maxLength_le hf (contains_of_isValidIn hvalid))
    fields := htakes.encode_fields hf hencode
    widths := htakes.encode_widths hf hencode }

/-- Every instruction that is encoded, by itself or as part of a section, is one that a processor
can read. -/
theorem encode_isWithinLimits (i : Instruction) :
    (∀ mode known e, i.encode mode known = .ok e → e.IsWithinLimits i.operands) ∧
      ∀ ctx items after, (Statement.instruction i).construct ctx = .ok items after →
        ∃ e, items = [.instruction e] ∧ e.IsWithinLimits i.operands := by
  refine ⟨fun mode known e h => isWithinLimits_of_encode h, fun ctx items after h => ?_⟩
  have hleaf : (Statement.instruction i).IsLeaf := trivial
  rw [Statement.construct_of_isLeaf hleaf, Statement.constructLeaf_eq_ok] at h
  obtain ⟨placed, h, -⟩ := h
  obtain ⟨⟨e, hencode, rfl⟩, -⟩ := Statement.place_instruction_eq_ok.1 h
  exact ⟨e, rfl, isWithinLimits_of_encode hencode⟩

/-- `add dword [fs:eax+ebx*4+0x12345678], 0x12345678`, which has every part in 16-bit mode. -/
def addToTable : Instruction where
  mnemonic := "add"
  operands :=
    [.memory { Address.new .bit32 with
        segment := some .fs
        base := some .eax
        index := some .ebx
        scale := 4
        displacement := some (.constant 0x12345678) },
      .immediate ⟨.constant 0x12345678, none⟩]

theorem encode_isWithinLimits_addToTable :
    ∃ e, addToTable.encode .bit16 (addToTable.knownValues none) = .ok e ∧ e.length = 14 ∧
      e.IsWithinLimits addToTable.operands := by
  have hlength : (addToTable.encode .bit16 (addToTable.knownValues none)).toOption.map
      Encoded.length = some 14 := by decide +kernel
  obtain ⟨e, hencode, hlength⟩ := Option.map_eq_some_iff.1 hlength
  have hencode := eq_ok_of_toOption hencode
  exact ⟨e, hencode, hlength, (encode_isWithinLimits addToTable).1 _ _ e hencode⟩

end Instruction

end Assembler
