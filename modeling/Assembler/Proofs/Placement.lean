import Assembler.Instruction
import Assembler.Proofs.Reader

/-!
# Placed operands

Where the operands of an instruction go. A form `Takes` operands when it is readable and each
operand has the shape of its slot; a form that is selected takes its operands
(`Instruction.takes_of_select`).

`Form.assign` goes through the operands one by one. `Assignment.placeAll` is what comes of all of
them: of each place the last operand. A readable form has one operand in a place at most, so that
the last is the only one: `assign_opcode`, `assign_reg`, `assign_rm`. In the same way
`findSome?_memory?` finds the only operand that addresses memory.
-/

namespace Assembler

/-! ## Operands of an accepting form -/

namespace Operand

/-- Whether an operand addresses memory. -/
def addressesMemory : Operand → Bool
  | .memory _ => true
  | .offset _ => true
  | _ => false

/-- Whether ModRM.rm can name an operand. -/
def isRm : Operand → Bool
  | .register _ => true
  | .memory _ => true
  | _ => false

end Operand

namespace Form

variable {f : Form} {operands : List Operand} {known : KnownValues} {mode : Mode}

/-- An operand that has the shape of its slot. -/
def Fits (f : Form) (operands : List Operand) (slot : Slot) (op : Operand) : Prop :=
  ∃ known, f.acceptsOperand slot.shape op known operands

theorem length_eq_of_accepts (h : f.accepts operands known mode) :
    f.slots.length = operands.length := by
  simp only [accepts, Bool.and_eq_true, decide_eq_true_eq] at h
  exact h.1.1

theorem acceptsOperand_of_accepts (h : f.accepts operands known mode) {i : Nat} {slot : Slot}
    {op : Operand} (hi : (f.pair operands)[i]? = some (slot, op)) :
    f.acceptsOperand slot.shape op (known.valueAt i) operands := by
  simp only [accepts, Bool.and_eq_true, List.all_eq_true] at h
  have hmem : ((slot, op), i) ∈ (f.pair operands).zipIdx := by
    rw [List.mk_mem_zipIdx_iff_getElem?]
    exact hi
  exact h.1.2 _ hmem

theorem fits_of_accepts (h : f.accepts operands known mode) {slot : Slot} {op : Operand}
    (hpair : (slot, op) ∈ f.pair operands) : f.Fits operands slot op := by
  obtain ⟨i, hi⟩ := List.mem_iff_getElem?.mp hpair
  exact ⟨known.valueAt i, acceptsOperand_of_accepts h hi⟩

theorem map_fst_pair (hlength : f.slots.length = operands.length) :
    (f.pair operands).map Prod.fst = f.slots :=
  List.map_fst_zip (Nat.le_of_eq hlength)

theorem map_snd_pair (hlength : f.slots.length = operands.length) :
    (f.pair operands).map Prod.snd = operands :=
  List.map_snd_zip (Nat.le_of_eq hlength.symm)

namespace Fits

variable {slot : Slot} {r : Register}

/-- A register that fits a slot is the one that it fixes, or one of the class and width that it
takes. -/
theorem register (h : f.Fits operands slot (.register r)) :
    slot.shape = .fixed r ∨ slot.shape.registerKind? = some (r.cls, r.size) := by
  obtain ⟨known, h⟩ := h
  unfold acceptsOperand at h
  cases hshape : slot.shape <;> simp_all [Shape.registerKind?]

/-- Among the operands in standard places, those in slots of ModRM.rm are the ones that it names. -/
theorem isRm {op : Operand} (h : f.Fits operands slot op) (hsound : slot.isSound) :
    slot.isRm = (decide (slot.placement = .standard) && op.isRm) := by
  obtain ⟨known, h⟩ := h
  obtain ⟨shape, placement⟩ := slot
  unfold acceptsOperand at h
  cases shape <;> cases op <;> cases placement <;>
    simp_all [Slot.isRm, Slot.isSound, Operand.isRm]

theorem takesMemory {op : Operand} (h : f.Fits operands slot op) (hop : op.addressesMemory) :
    slot.takesMemory := by
  obtain ⟨known, h⟩ := h
  unfold acceptsOperand at h
  cases hshape : slot.shape <;> cases op <;>
    simp_all [Slot.takesMemory, Operand.addressesMemory]

/-- What fits a slot in the opcode or in ModRM.reg is a register. -/
theorem eq_register {op : Operand} (h : f.Fits operands slot op) (hsound : slot.isSound)
    (hplace : slot.placement = .opcode ∨ slot.placement = .reg) : ∃ r, op = .register r := by
  obtain ⟨known, h⟩ := h
  obtain ⟨shape, placement⟩ := slot
  unfold acceptsOperand at h
  cases shape <;> cases op <;> cases placement <;> simp_all [Slot.isSound]

end Fits

end Form

/-! ## Placed operands -/

namespace Assignment

/-- The registers that stand in a place, in order. -/
def registersAt (pairs : List (Slot × Operand)) (p : Placement) : List Register :=
  pairs.filterMap fun (slot, op) =>
    match op with
    | .register r => if slot.placement = p then some r else none
    | _ => none

/-- The operands in ModRM.rm, in order. -/
def rmOperands (pairs : List (Slot × Operand)) : List Operand :=
  (pairs.filter fun (slot, op) => slot.placement = .standard && op.isRm).map Prod.snd

/-- An assignment with operands put in their places: of each place the last, and every extension. -/
def placeAll (a : Assignment) (pairs : List (Slot × Operand)) : Assignment where
  opcode := (registersAt pairs .opcode).foldl (fun opcode r => addToLast opcode r.low) a.opcode
  reg := ((registersAt pairs .reg).getLast?.map Register.low).or a.reg
  rm := (rmOperands pairs).getLast?.or a.rm
  rex := a.rex.union
    { Rex.empty with
      r := (registersAt pairs .reg).any Register.isExtended
      b := (registersAt pairs .opcode).any Register.isExtended }
  needsRex := a.needsRex || pairs.any fun (_, op) => isRexByte op

theorem placeAll_nil (a : Assignment) : a.placeAll [] = a := by
  simp [placeAll, registersAt, rmOperands, Rex.union, Rex.empty]

theorem placeAll_singleton (a : Assignment) (slot : Slot) (op : Operand) :
    a.placeAll [(slot, op)] = a.place slot op := by
  cases hplace : slot.placement <;> cases op <;>
    simp [placeAll, place, registersAt, rmOperands, Rex.union, Rex.empty, hplace, Operand.isRm]

theorem placeAll_append (a : Assignment) (pairs more : List (Slot × Operand)) :
    a.placeAll (pairs ++ more) = (a.placeAll pairs).placeAll more := by
  simp [placeAll, registersAt, rmOperands, Rex.union, Bool.or_assoc, Option.or_assoc,
    List.getLast?_append, Option.map_or]

theorem foldl_place (a : Assignment) (pairs : List (Slot × Operand)) :
    pairs.foldl (fun a (slot, op) => a.place slot op) a = a.placeAll pairs := by
  induction pairs generalizing a with
  | nil => rw [placeAll_nil, List.foldl_nil]
  | cons pair pairs ih =>
    obtain ⟨slot, op⟩ := pair
    rw [List.foldl_cons, ih]
    show (a.place slot op).placeAll pairs = _
    -- placing one operand is placing a list of one
    rw [← placeAll_singleton, ← placeAll_append, List.singleton_append]

theorem mem_registersAt {pairs : List (Slot × Operand)} {slot : Slot} {r : Register}
    (hpair : (slot, .register r) ∈ pairs) : r ∈ registersAt pairs slot.placement :=
  List.mem_filterMap.mpr ⟨_, hpair, by simp⟩

theorem length_registersAt_le (pairs : List (Slot × Operand)) (p : Placement) :
    (registersAt pairs p).length ≤ (pairs.map Prod.fst).countP (·.placement = p) := by
  rw [registersAt, List.length_filterMap_eq_countP, List.countP_map]
  apply List.countP_mono_left
  rintro ⟨slot, op⟩ -
  cases op <;> simp

end Assignment

theorem eq_singleton_of_mem {α : Type} {l : List α} {x : α} (hlength : l.length ≤ 1) (hx : x ∈ l) :
    l = [x] := by
  match l, hlength, hx with
  | [y], _, hx => rw [List.mem_singleton.mp hx]

namespace Form

open Assignment

theorem assign_eq (f : Form) (operands : List Operand) :
    f.assign operands =
      (⟨f.opcode, f.digit, none, f.wideRex, false⟩ : Assignment).placeAll (f.pair operands) :=
  foldl_place _ _

/-- A readable form with operands that it accepts. -/
structure Takes (f : Form) (operands : List Operand) : Prop where
  readable : f.Readable
  length_eq : f.slots.length = operands.length
  fits : ∀ {slot op}, (slot, op) ∈ f.pair operands → f.Fits operands slot op

namespace Takes

variable {f : Form} {operands : List Operand}

theorem isSound (h : f.Takes operands) {slot : Slot} {op : Operand}
    (hpair : (slot, op) ∈ f.pair operands) : slot.isSound :=
  h.readable.sound slot (List.of_mem_zip hpair).1

/-- A register in the opcode or in ModRM.reg stands there alone. -/
theorem registersAt_eq (h : f.Takes operands) {slot : Slot} {r : Register}
    (hpair : (slot, .register r) ∈ f.pair operands)
    (hplace : slot.placement = .opcode ∨ slot.placement = .reg) :
    registersAt (f.pair operands) slot.placement = [r] := by
  have hone : f.slots.countP (·.placement = slot.placement) ≤ 1 := by
    rcases hplace with hplace | hplace <;> rw [hplace]
    · exact h.readable.one_opcode
    · exact h.readable.one_reg
  have hle := length_registersAt_le (f.pair operands) slot.placement
  rw [map_fst_pair h.length_eq] at hle
  exact eq_singleton_of_mem (Nat.le_trans hle hone) (mem_registersAt hpair)

/-- A place that no slot has is empty. -/
theorem registersAt_eq_nil (h : f.Takes operands) {p : Placement}
    (hp : f.slots.any (·.placement = p) = false) : registersAt (f.pair operands) p = [] := by
  have hle := length_registersAt_le (f.pair operands) p
  have hnone : f.slots.countP (·.placement = p) = 0 := by
    simpa [List.countP_eq_zero] using hp
  rw [map_fst_pair h.length_eq, hnone] at hle
  exact List.length_eq_zero_iff.mp (Nat.le_zero.mp hle)

theorem length_rmOperands (h : f.Takes operands) :
    (rmOperands (f.pair operands)).length = f.slots.countP Slot.isRm := by
  have hslots := map_fst_pair h.length_eq
  rw [rmOperands, List.length_map, ← List.countP_eq_length_filter, ← hslots, List.countP_map]
  apply List.countP_congr
  rintro ⟨slot, op⟩ hpair
  simp [(h.fits hpair).isRm (h.isSound hpair)]

/-- A register in the opcode is added to it. -/
theorem assign_opcode (h : f.Takes operands) {slot : Slot} {r : Register}
    (hpair : (slot, .register r) ∈ f.pair operands) (hplace : slot.placement = .opcode) :
    (f.assign operands).opcode = addToLast f.opcode r.low ∧
      (f.assign operands).rex.b = r.isExtended := by
  have hone := h.registersAt_eq hpair (.inl hplace)
  rw [hplace] at hone
  simp [assign_eq, placeAll, hone, Rex.union, wideRex, Rex.empty]

theorem assign_opcode_of_none (h : f.Takes operands)
    (hnone : f.slots.any (·.placement = .opcode) = false) :
    (f.assign operands).opcode = f.opcode ∧ (f.assign operands).rex.b = false := by
  simp [assign_eq, placeAll, h.registersAt_eq_nil hnone, Rex.union, wideRex, Rex.empty]

/-- A register in ModRM.reg is its only one. -/
theorem assign_reg (h : f.Takes operands) {slot : Slot} {r : Register}
    (hpair : (slot, .register r) ∈ f.pair operands) (hplace : slot.placement = .reg) :
    (f.assign operands).reg = some r.low ∧ (f.assign operands).rex.r = r.isExtended := by
  have hone := h.registersAt_eq hpair (.inr hplace)
  rw [hplace] at hone
  simp [assign_eq, placeAll, hone, Rex.union, wideRex, Rex.empty]

theorem assign_reg_of_none (h : f.Takes operands)
    (hnone : f.slots.any (·.placement = .reg) = false) :
    (f.assign operands).reg = f.digit := by
  simp [assign_eq, placeAll, h.registersAt_eq_nil hnone]

theorem assign_rm (h : f.Takes operands) {slot : Slot} {op : Operand}
    (hpair : (slot, op) ∈ f.pair operands) (hslot : slot.isRm) :
    (f.assign operands).rm = some op := by
  have hone := h.readable.one_rm
  rw [← h.length_rmOperands] at hone
  have hmem : op ∈ rmOperands (f.pair operands) := by
    rw [(h.fits hpair).isRm (h.isSound hpair)] at hslot
    exact List.mem_map.mpr ⟨_, List.mem_filter.mpr ⟨hpair, hslot⟩, rfl⟩
  simp [assign_eq, placeAll, eq_singleton_of_mem hone hmem]

theorem assign_rm_of_none (h : f.Takes operands) (hnone : f.slots.any Slot.isRm = false) :
    (f.assign operands).rm = none := by
  have hlength := h.length_rmOperands
  have hzero : f.slots.countP Slot.isRm = 0 := by simpa [List.countP_eq_zero] using hnone
  rw [hzero] at hlength
  simp [assign_eq, placeAll, List.length_eq_zero_iff.mp hlength]

theorem exists_pair (h : f.Takes operands) {slot : Slot} (hslot : slot ∈ f.slots) :
    ∃ op, (slot, op) ∈ f.pair operands := by
  rw [← map_fst_pair h.length_eq] at hslot
  obtain ⟨⟨slot, op⟩, hpair, rfl⟩ := List.mem_map.mp hslot
  exact ⟨op, hpair⟩

theorem exists_slot (h : f.Takes operands) {op : Operand} (hop : op ∈ operands) :
    ∃ slot, (slot, op) ∈ f.pair operands := by
  rw [← map_snd_pair h.length_eq] at hop
  obtain ⟨⟨slot, op⟩, hpair, rfl⟩ := List.mem_map.mp hop
  exact ⟨slot, hpair⟩

/-- What an instruction has for ModRM is what the form says. -/
theorem assign_usesModRM (h : f.Takes operands) :
    ((f.assign operands).reg.isSome || (f.assign operands).rm.isSome) = f.usesModRM := by
  have hreg : (f.assign operands).reg.isSome =
      (f.digit.isSome || f.slots.any (·.placement = .reg)) := by
    cases hany : f.slots.any (·.placement = .reg) with
    | false => rw [h.assign_reg_of_none hany, Bool.or_false]
    | true =>
      obtain ⟨slot, hslot, hplace⟩ := List.any_eq_true.mp hany
      have hplace := of_decide_eq_true hplace
      obtain ⟨op, hpair⟩ := h.exists_pair hslot
      obtain ⟨r, rfl⟩ := (h.fits hpair).eq_register (h.isSound hpair) (.inr hplace)
      rw [(h.assign_reg hpair hplace).1, Option.isSome_some, Bool.or_true]
  have hrm : (f.assign operands).rm.isSome = f.slots.any Slot.isRm := by
    cases hany : f.slots.any Slot.isRm with
    | false => rw [h.assign_rm_of_none hany, Option.isSome_none]
    | true =>
      obtain ⟨slot, hslot, hisRm⟩ := List.any_eq_true.mp hany
      obtain ⟨op, hpair⟩ := h.exists_pair hslot
      rw [h.assign_rm hpair hisRm, Option.isSome_some]
  rw [hreg, hrm, usesModRM]

/-- What stands in ModRM.rm can be named there. -/
theorem isRm_of_assign_rm {op : Operand} (h : (f.assign operands).rm = some op) : op.isRm := by
  simp only [assign_eq, placeAll, Option.or_none] at h
  obtain ⟨⟨slot, op⟩, hpair, rfl⟩ := List.mem_map.mp (List.mem_of_getLast? h)
  have hfilter := (List.mem_filter.mp hpair).2
  simp only [Bool.and_eq_true] at hfilter
  exact hfilter.2

end Takes

/-! ## The opcode -/

/-- Of two opcodes with the same bytes before the last, the last is compared under the mask. -/
theorem matchesOpcode_append_singleton (mask : UInt8) (opcode : List UInt8) (o b : UInt8) :
    matchesOpcode mask (opcode ++ [o]) (opcode ++ [b]) = decide (b &&& mask = o &&& mask) := by
  induction opcode with
  | nil => rfl
  | cons x opcode ih =>
    -- whether the byte is the last of the opcode decides how it is compared
    cases opcode with
    | nil => simp [matchesOpcode]
    | cons y opcode =>
      simp only [List.cons_append] at ih ⊢
      rw [matchesOpcode, ih]
      · simp
      · simp

/-- The low bits of an opcode that a register number is added to, where they are zero. -/
theorem add_low {last : UInt8} (hlast : last &&& 0x07 = 0) (low : BitVec 3) :
    (last + ⟨low.setWidth 8⟩) &&& 0xF8 = last &&& 0xF8 ∧
      (last + ⟨low.setWidth 8⟩).toBitVec.setWidth 3 = low := by
  obtain ⟨last⟩ := last
  revert last low
  decide +kernel

theorem addToLast_append (opcode : List UInt8) (last : UInt8) (low : BitVec 3) :
    addToLast (opcode ++ [last]) low = opcode ++ [last + ⟨low.setWidth 8⟩] := by
  simp [addToLast]

namespace Takes

variable {f : Form} {operands : List Operand}

/-- The opcode of an instruction with a register in it: it is read as the form's, and its low bits
are those of the register. -/
theorem readsOpcode_of_mem (h : f.Takes operands) {slot : Slot} {r : Register}
    (hpair : (slot, .register r) ∈ f.pair operands) (hplace : slot.placement = .opcode) :
    f.readsOpcode (f.assign operands).opcode ∧
      (f.assign operands).opcode.getLast?.map (·.toBitVec.setWidth 3) = some r.low := by
  have hany : f.slots.any (·.placement = .opcode) :=
    List.any_eq_true.mpr ⟨slot, (List.of_mem_zip hpair).1, by simp [hplace]⟩
  -- the number is added to zeros, so that nothing is carried
  obtain ⟨last, hlast⟩ := Option.ne_none_iff_exists'.mp
    (mt List.getLast?_eq_none_iff.mp h.readable.opcode_ne_nil)
  obtain ⟨high, hlow⟩ := add_low (h.readable.low_zero hany last hlast) r.low
  obtain ⟨init, hopcode⟩ := List.getLast?_eq_some_iff.mp hlast
  rw [(h.assign_opcode hpair hplace).1, readsOpcode, opcodeMask, if_pos hany, hopcode,
    addToLast_append, matchesOpcode_append_singleton]
  exact ⟨decide_eq_true high, by rw [List.getLast?_concat, Option.map_some, hlow]⟩

/-- The opcode with the register of an operand in it is still read as the opcode of the form. -/
theorem readsOpcode (h : f.Takes operands) : f.readsOpcode (f.assign operands).opcode := by
  cases hany : f.slots.any (·.placement = .opcode) with
  | true =>
    obtain ⟨slot, hslot, hplace⟩ := List.any_eq_true.mp hany
    have hplace := of_decide_eq_true hplace
    obtain ⟨op, hpair⟩ := h.exists_pair hslot
    obtain ⟨r, rfl⟩ := (h.fits hpair).eq_register (h.isSound hpair) (.inl hplace)
    exact (h.readsOpcode_of_mem hpair hplace).1
  | false =>
    obtain ⟨last, hlast⟩ := Option.ne_none_iff_exists'.mp
      (mt List.getLast?_eq_none_iff.mp h.readable.opcode_ne_nil)
    obtain ⟨init, hopcode⟩ := List.getLast?_eq_some_iff.mp hlast
    rw [(h.assign_opcode_of_none hany).1, Form.readsOpcode, hopcode,
      matchesOpcode_append_singleton]
    simp

end Takes

end Form

/-! ## The memory operand -/

theorem findSome?_eq_of_unique {α β : Type} {l : List α} {g : α → Option β} {x : α} (hx : x ∈ l)
    (hunique : ∀ y ∈ l, (g y).isSome → y = x) : l.findSome? g = g x := by
  cases hfound : l.findSome? g with
  | none => exact (List.findSome?_eq_none_iff.mp hfound x hx).symm
  | some b =>
    obtain ⟨y, hy, hb⟩ := List.exists_of_findSome?_eq_some hfound
    rw [← hunique y hy (by simp [hb]), hb]

namespace Form.Takes

variable {f : Form} {operands : List Operand} {mode : Mode}

/-- Every operand that addresses memory has a slot that takes memory, of which there is one. -/
theorem countP_addressesMemory (h : f.Takes operands) :
    operands.countP Operand.addressesMemory ≤ 1 := by
  refine Nat.le_trans ?_ h.readable.one_memory
  have hslots := map_fst_pair h.length_eq
  have hoperands := map_snd_pair h.length_eq
  rw [← hslots, List.countP_map]
  conv => lhs; rw [← hoperands, List.countP_map]
  apply List.countP_mono_left
  rintro ⟨slot, op⟩ hpair hop
  exact (h.fits hpair).takesMemory hop

/-- Only one operand addresses memory. -/
theorem eq_of_addressesMemory (h : f.Takes operands) {op other : Operand} (hop : op ∈ operands)
    (hmemory : op.addressesMemory) (hother : other ∈ operands) (hmemory' : other.addressesMemory) :
    other = op := by
  have hone := h.countP_addressesMemory
  rw [List.countP_eq_length_filter] at hone
  have hfilter := eq_singleton_of_mem hone (List.mem_filter.mpr ⟨hop, hmemory⟩)
  have hmem := List.mem_filter.mpr ⟨hother, hmemory'⟩
  rw [hfilter] at hmem
  exact List.mem_singleton.mp hmem

theorem findSome?_memory? (h : f.Takes operands) {op : Operand} (hop : op ∈ operands)
    (hmemory : op.addressesMemory) :
    operands.findSome? Operand.memory? = op.memory? ∧
      operands.findSome? Operand.offset? = op.offset? := by
  constructor
  · refine findSome?_eq_of_unique hop fun other hother hsome => ?_
    exact h.eq_of_addressesMemory hop hmemory hother (by cases other <;> first | rfl | cases hsome)
  · refine findSome?_eq_of_unique hop fun other hother hsome => ?_
    exact h.eq_of_addressesMemory hop hmemory hother (by cases other <;> first | rfl | cases hsome)

end Form.Takes

theorem Form.findSome?_of_no_memory {operands : List Operand}
    (h : ∀ op ∈ operands, op.addressesMemory = false) :
    operands.findSome? Operand.memory? = none ∧ operands.findSome? Operand.offset? = none := by
  constructor
  · refine List.findSome?_eq_none_iff.mpr fun op hop => ?_
    cases op <;> first | rfl | cases h _ hop
  · refine List.findSome?_eq_none_iff.mpr fun op hop => ?_
    cases op <;> first | rfl | cases h _ hop

theorem Form.takes_of_accepts {opcode : Opcode} (hopcode : opcode ∈ OpcodeTable.opcodes) {f : Form}
    (hf : f ∈ opcode.forms) {operands : List Operand} {known : KnownValues} {mode : Mode}
    (h : f.accepts operands known mode) : f.Takes operands :=
  ⟨readable_of_mem hopcode hf, length_eq_of_accepts h, fits_of_accepts h⟩

namespace Instruction

variable {i : Instruction} {mode : Mode} {known : KnownValues} {f : Form}

/-- The selected form is one of the table that takes the operands and exists in the mode. -/
theorem takes_of_select (h : i.select mode known = .ok f) :
    f.Takes i.operands ∧ f.isValidIn i.operands mode := by
  unfold select at h
  split at h
  · cases h
  next opcode hfind =>
    dsimp only at h
    split at h
    next g hg =>
      cases h
      have hopcode : opcode ∈ OpcodeTable.opcodes := by
        unfold OpcodeTable.find? at hfind
        exact List.mem_of_find?_eq_some hfind
      obtain ⟨hmem, haccepts⟩ := List.mem_filter.mp (List.mem_of_find?_eq_some hg)
      exact ⟨Form.takes_of_accepts hopcode hmem haccepts, by simpa using List.find?_some hg⟩
    · split at h <;> cases h

end Instruction

end Assembler
