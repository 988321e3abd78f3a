import Assembler.Proofs.AddressReader
import Assembler.Proofs.Passes
import Assembler.Proofs.Width

/-!
# Addresses read back

Which memory operands have bytes, and that a processor finds the address in them that they were made
from. Main statement: `Address.encode_roundTrip`.

`Address.IsEncodable` says which addresses have bytes. `Address.IsWrittenAs` says what bytes have to
do with an address: `readAddress` finds its registers, and the field behind the bytes holds its
displacement. Each shape of the bytes is taken on its own: the pairs of 16-bit addressing, and for
the others those that count from the next instruction, those without a base and those with one.
-/

namespace Assembler

/-- The address sizes of a mode. -/
def Mode.addressSizes : Mode → List DataSize
  | .bit16 => [.bit16, .bit32]
  | .bit32 => [.bit16, .bit32]
  | .bit64 => [.bit32, .bit64]

namespace Address

/-- The registers of a 16-bit address: one of `bx`, `bp` and one of `si`, `di` in either order, one
of the four, or none. -/
def IsPair : Option Register → Option Register → Prop
  | none, none => True
  | some r, none => r ∈ [Register.bx, .bp, .si, .di]
  | none, some r => r ∈ [Register.bx, .bp, .si, .di]
  | some r, some s =>
    (r ∈ [Register.bx, .bp] ∧ s ∈ [Register.si, .di]) ∨
      (r ∈ [Register.si, .di] ∧ s ∈ [Register.bx, .bp])

/-- The addresses that have bytes. -/
def IsEncodable (a : Address) (size : DataSize) : Prop :=
  if size = .bit16 then (a.index ≠ none → a.scale = 1) ∧ IsPair a.base a.index
  else
    (a.ripRelative = true ∧ a.base = none ∧ a.index = none) ∨
      (a.ripRelative = false ∧ a.scale ∈ [1, 2, 4, 8] ∧ a.index ≠ some .esp ∧
        a.index ≠ some .rsp)

/-- What a reading finds of an address, with `field` behind the bytes. In 16-bit addressing nothing
tells the base from the index. -/
structure IsReadAs (a : Address) (size : DataSize) (reg : BitVec 3) (field : Option Field)
    (r : AddressReading) : Prop where
  reg : r.reg = reg
  registers : size ≠ .bit16 → r.base = a.base ∧ r.index = a.index.map (·, a.scale)
  pair : size = .bit16 → (r.base.toList ++ (r.index.map Prod.fst).toList).Perm a.registers ∧
    ∀ s factor, r.index = some (s, factor) → factor = 1
  ripRelative : r.ripRelative = a.ripRelative
  displacement : r.displacement = field.map Field.size

/-- A field holds the displacement of an address: what the processor adds in the width of the
address is the value of the displacement, and what has no field is zero. One byte is for a known
number that it can hold. -/
structure IsDisplacedBy (a : Address) (size : DataSize) (field : Option Field) : Prop where
  expr : ∀ f, field = some f → f.expr = a.displacementOrZero
  kind : ∀ f, field = some f → f.kind = if a.ripRelative then .relative else .absolute
  value : ∀ f v, field = some f → f.accepts v →
    (v.setWidth f.size.bits).signExtend size.bits = v.setWidth size.bits
  short : ∀ f, field = some f → f.size = .bit8 →
    ∃ v, a.displacementOrZero.literal = some v ∧ f.accepts v
  absent : field = none → a.displacementOrZero.literal = some 0

/-- The bytes and the field of an address say what it is. Outside 64-bit mode they do without a REX
prefix. -/
structure IsWrittenAs (a : Address) (mode : Mode) (size : DataSize) (reg : BitVec 3)
    (enc : EncodedAddress) : Prop where
  reading : ∃ r, a.IsReadAs size reg enc.displacement r ∧
    ∀ rest, readAddress mode size enc.rex.x enc.rex.b (enc.bytes ++ rest) = some (r, rest)
  displacement : a.IsDisplacedBy size enc.displacement
  rex : mode ≠ .bit64 → enc.rex = .empty

/-! ### Registers -/

theorem impliedSize_eq_ok {rs : List Register} {implied : Option DataSize} (hlength : rs.length ≤ 2)
    (h : impliedSize rs = .ok implied) : ∀ r ∈ rs, canAddress r ∧ implied = some r.size := by
  match rs with
  | [] => simp
  | [r] => grind [impliedSize]
  | [r, s] => grind [impliedSize]

theorem length_registers_le (a : Address) : a.registers.length ≤ 2 := by
  unfold registers
  cases a.base <;> cases a.index <;> simp

/-- The registers of an address have its width. -/
theorem size_of_effectiveSize {a : Address} {mode : Mode} {size : DataSize}
    (h : a.effectiveSize mode = .ok size) (hrip : a.ripRelative = false) :
    ∀ r ∈ a.registers, r.isGeneral ∧ r.size = size := by
  intro r hr
  simp only [effectiveSize, hrip, Bool.false_eq_true, if_false] at h
  obtain ⟨implied, himplied, h⟩ := exceptBind_eq_ok.1 h
  obtain ⟨haddress, rfl⟩ := impliedSize_eq_ok a.length_registers_le himplied r hr
  simp only [canAddress, Bool.and_eq_true] at haddress
  refine ⟨haddress.1, ?_⟩
  cases hexplicit : a.addressSize with
  | none => simpa [hexplicit] using h
  | some explicit =>
    simp only [hexplicit] at h
    split at h
    · cases h
    next hsame =>
      cases h
      exact (Decidable.not_not.mp hsame).symm

/-- A register is found by the parts of its number. -/
theorem registerOf_low {r : Register} {size : DataSize} (h : r.isGeneral ∧ r.size = size)
    (hsize : size ≠ .bit8) : AddressReading.registerOf size r.isExtended r.low = some r := by
  have hbyte : ∀ r : Register, r.isHighByte ∨ r.isUniformByte → r.size = .bit8 := by
    intro r
    cases r <;> decide
  obtain ⟨hgeneral, rfl⟩ := h
  have hclass : r.cls = .general := by simpa [Register.isGeneral] using hgeneral
  rw [AddressReading.registerOf, Register.number_eq_append, ← hclass]
  apply Register.ofNumber?_number
  · intro hhigh
    exact absurd (hbyte r (.inl hhigh)) hsize
  · intro huniform
    exact absurd (hbyte r (.inr huniform)) hsize

/-- The bits that stand for no index are those of the number that is no index. -/
theorem isExtended_low_iff (r : Register) :
    r.isExtended = false ∧ r.low = 0b100 ↔ r.number = 4 := by
  have hparts : ∀ n : BitVec 4, n.msb = false ∧ n.setWidth 3 = 0b100 ↔ n = 4 := by decide
  exact hparts r.number

theorem number_eq_four_iff {r : Register} {size : DataSize} (h : r.isGeneral ∧ r.size = size)
    (hsize : size = .bit32 ∨ size = .bit64) : r.number = 4 ↔ r = .esp ∨ r = .rsp := by
  have htable : ∀ r ∈ Register.all, r.isGeneral → (r.size = .bit32 ∨ r.size = .bit64) →
      (r.number = 4 ↔ r = .esp ∨ r = .rsp) := by decide +kernel
  obtain ⟨hgeneral, rfl⟩ := h
  exact htable r r.mem_all hgeneral hsize

/-! ### Displacements -/

section Displacements

variable {a : Address} {size full : DataSize}

theorem isDisplacedBy_some {f : Field} (hexpr : f.expr = a.displacementOrZero)
    (hkind : f.kind = if a.ripRelative then .relative else .absolute)
    (hle : f.size.bits ≤ size.bits)
    (hextends : f.kind = .absolute → f.extendsTo = if f.size = size then none else some size)
    (hshort : f.size = .bit8 → ∃ v, a.displacementOrZero.literal = some v ∧ f.accepts v) :
    a.IsDisplacedBy size (some f) where
  expr _ h := by cases h; exact hexpr
  kind _ h := by cases h; exact hkind
  value _ _ h haccepts := by cases h; exact f.signExtend_of_accepts haccepts hle hextends
  short _ h := by cases h; exact hshort
  absent h := by cases h

/-- The widths of an address, each with that of a displacement that is not short. -/
def IsFullWidth (full size : DataSize) : Prop :=
  full = .bit16 ∧ size = .bit16 ∨ full = .bit32 ∧ (size = .bit32 ∨ size = .bit64)

/-- A known displacement that fits in a byte is held by a field of one byte. -/
theorem isDisplacedBy_short (hrip : a.ripRelative = false) (hfull : IsFullWidth full size)
    {v : Word} (hliteral : a.displacementOrZero.literal = some v) (hv : v.fitsSigned .bit8) :
    a.IsDisplacedBy size (some (shortDisplacement a.displacementOrZero size)) := by
  have hsize : size = .bit16 ∨ size = .bit32 ∨ size = .bit64 := by
    unfold IsFullWidth at hfull
    grind
  apply isDisplacedBy_some rfl
  · simp [hrip, shortDisplacement, Field.absolute, Field.signExtended]
  · change DataSize.bits .bit8 ≤ size.bits
    rcases hsize with rfl | rfl | rfl <;> decide
  · rcases hsize with rfl | rfl | rfl <;> exact fun _ => rfl
  · intro _
    refine ⟨v, hliteral, ?_⟩
    simp [shortDisplacement, Field.absolute, Field.signExtended, Field.accepts, Word.fitsExtended,
      hv]

theorem isDisplacedBy_full (hrip : a.ripRelative = false) (hfull : IsFullWidth full size) :
    a.IsDisplacedBy size (some (fullDisplacement a.displacementOrZero full size)) := by
  rcases hfull with ⟨rfl, rfl⟩ | ⟨rfl, rfl | rfl⟩
  all_goals
    apply isDisplacedBy_some rfl
    · simp [hrip, fullDisplacement, Field.absolute, Field.signExtended]
    · exact Nat.le_of_ble_eq_true rfl
    · exact fun _ => rfl
    · nofun

/-- ModRM.mod and a field that write the displacement of an address. -/
structure IsDisplacementForm (a : Address) (needed : Bool) (full size : DataSize) (mod : BitVec 2)
    (field : Option Field) : Prop where
  mod_ne : mod ≠ 0b11
  mod_of_needed : needed → mod ≠ 0b00
  width : AddressReading.displacementOf mod full = field.map Field.size
  isDisplacedBy : a.IsDisplacedBy size field

/-- ModRM.mod and the field that are chosen for a displacement write it, and ModRM.mod is not zero
where a displacement is needed. -/
theorem displacementForm_isDisplacementForm (hrip : a.ripRelative = false)
    (hfull : IsFullWidth full size) (needed : Bool) :
    a.IsDisplacementForm needed full size (displacementForm a.displacement needed full size).1
      (displacementForm a.displacement needed full size).2 := by
  have habsent (h : a.displacementOrZero.literal = some 0) :
      a.IsDisplacementForm false full size 0b00 none :=
    ⟨by decide, nofun, rfl, nofun, nofun, nofun, nofun, fun _ => h⟩
  have hshort {v : Word} (h : a.displacementOrZero.literal = some v) (hv : v.fitsSigned .bit8) :
      a.IsDisplacementForm needed full size 0b01
        (some (shortDisplacement a.displacementOrZero size)) :=
    ⟨by decide, fun _ => by decide, rfl, isDisplacedBy_short hrip hfull h hv⟩
  have hlong : a.IsDisplacementForm needed full size 0b10
      (some (fullDisplacement a.displacementOrZero full size)) := by
    refine ⟨by decide, fun _ => by decide, ?_, isDisplacedBy_full hrip hfull⟩
    unfold fullDisplacement
    split <;> rfl
  cases hd : a.displacement with
  | none =>
    have hzero : a.displacementOrZero = .constant 0 := by simp [displacementOrZero, hd]
    cases needed with
    | true =>
      rw [hzero] at hshort
      exact hshort rfl (by decide)
    | false => exact habsent (by rw [hzero]; rfl)
  | some d =>
    obtain rfl : a.displacementOrZero = d := by simp [displacementOrZero, hd]
    unfold displacementForm
    dsimp only
    split
    next v hliteral =>
      by_cases hzero : v = 0 && !needed
      · rw [if_pos hzero]
        simp only [Bool.and_eq_true, decide_eq_true_eq, Bool.not_eq_true'] at hzero
        obtain ⟨rfl, rfl⟩ := hzero
        exact habsent hliteral
      · rw [if_neg hzero]
        split
        next hv => exact hshort hliteral hv
        · exact hlong
    · exact hlong

end Displacements

/-! ### 16-bit addresses -/

/-- The pair that ModRM.rm names is that of the address. -/
theorem pairOf_of_pairBits? {base index : Option Register} {rm : BitVec 3}
    (h : pairBits? base index = some rm) :
    ((AddressReading.pairOf rm).1.toList ++ (AddressReading.pairOf rm).2.toList).Perm
      (base.toList ++ index.toList) := by
  unfold pairBits? at h
  split at h <;> cases h <;> decide

/-- The pairs that ModRM.rm can name. -/
theorem exists_pairBits?_iff {base index : Option Register} (h : ¬ (base = none ∧ index = none)) :
    (∃ rm, pairBits? base index = some rm) ↔ IsPair base index := by
  constructor
  · rintro ⟨rm, hrm⟩
    unfold pairBits? at hrm
    split at hrm <;> cases hrm <;> simp [IsPair]
  · intro hpair
    match base, index with
    | none, none => exact absurd ⟨rfl, rfl⟩ h
    | some r, none | none, some r =>
      simp only [IsPair, List.mem_cons, List.not_mem_nil, or_false] at hpair
      rcases hpair with rfl | rfl | rfl | rfl <;> exact ⟨_, rfl⟩
    | some r, some s =>
      simp only [IsPair, List.mem_cons, List.not_mem_nil, or_false] at hpair
      rcases hpair with ⟨rfl | rfl, rfl | rfl⟩ | ⟨rfl | rfl, rfl | rfl⟩ <;> exact ⟨_, rfl⟩

section Encode16

variable {a : Address} {reg : BitVec 3} {enc : EncodedAddress} {mode : Mode}

/-- The addresses that have bytes in 16-bit addressing, and what these are: a displacement alone, or
a pair of registers. -/
theorem encode16_eq_ok :
    a.encode16 reg = .ok enc ↔ (a.index ≠ none → a.scale = 1) ∧
      ((a.base = none ∧ a.index = none ∧
          enc = ⟨[ModRM.byte ⟨0b00, reg, 0b110⟩],
            some (.absolute a.displacementOrZero .bit16), .empty⟩) ∨
        (¬ (a.base = none ∧ a.index = none) ∧ ∃ rm, pairBits? a.base a.index = some rm ∧
          enc = ⟨[ModRM.byte
              ⟨(displacementForm a.displacement (rm = 0b110) .bit16 .bit16).1, reg, rm⟩],
            (displacementForm a.displacement (rm = 0b110) .bit16 .bit16).2, .empty⟩)) := by
  unfold encode16
  by_cases hscale : a.index ≠ none → a.scale = 1
  · have hallowed : (a.index.isSome && a.scale ≠ 1) = false := by
      cases hindex : a.index <;> simp_all
    rw [hallowed, if_neg Bool.false_ne_true, and_iff_right hscale]
    by_cases hnone : a.base = none ∧ a.index = none
    · simp [hnone, eq_comm]
    · have hsome : (a.base.isNone && a.index.isNone) = false := by
        cases hbase : a.base <;> cases hindex : a.index <;> simp_all
      rw [hsome, if_neg Bool.false_ne_true, or_iff_right fun h => hnone ⟨h.1, h.2.1⟩,
        and_iff_right hnone]
      cases pairBits? a.base a.index with
      | none => simp
      | some rm => simp [eq_comm]
  · have hrefused : (a.index.isSome && a.scale ≠ 1) = true := by
      cases hindex : a.index <;> simp_all
    rw [hrefused, if_pos rfl]
    simp [hscale]

theorem exists_encode16_iff :
    (∃ enc, a.encode16 reg = .ok enc) ↔
      (a.index ≠ none → a.scale = 1) ∧ IsPair a.base a.index := by
  simp only [encode16_eq_ok]
  by_cases hnone : a.base = none ∧ a.index = none
  · simp [hnone, IsPair]
  · simp only [← exists_pairBits?_iff hnone, hnone]
    grind

/-- The bytes in 16-bit addressing say what the address is. -/
theorem encode16_isWrittenAs (hrip : a.ripRelative = false) (h : a.encode16 reg = .ok enc) :
    a.IsWrittenAs mode .bit16 reg enc := by
  obtain ⟨-, ⟨hbase, hindex, rfl⟩ | ⟨-, rm, hrm, rfl⟩⟩ := encode16_eq_ok.1 h
  · refine ⟨⟨_, ?_, readAddress_of16 (by decide) _ _⟩, isDisplacedBy_full hrip (.inl ⟨rfl, rfl⟩),
      fun _ => rfl⟩
    refine ⟨rfl, nofun, fun _ => ⟨?_, nofun⟩, hrip.symm, rfl⟩
    simp [AddressReading.of16, registers, hbase, hindex]
  · have hform := displacementForm_isDisplacementForm hrip (.inl ⟨rfl, rfl⟩) (rm = 0b110)
    refine ⟨⟨_, ?_, readAddress_of16 hform.mod_ne _ _⟩, hform.isDisplacedBy, fun _ => rfl⟩
    rw [AddressReading.of16_of_ne fun h => hform.mod_of_needed (decide_eq_true h.2) h.1]
    refine ⟨rfl, nofun, fun _ => ⟨?_, ?_⟩, hrip.symm, hform.width⟩
    · simpa [Function.comp_def, registers] using pairOf_of_pairBits? hrm
    · simp +contextual

end Encode16

/-! ### 32- and 64-bit addresses -/

theorem factorOf_of_scaleBits? {factor : UInt8} {scale : BitVec 2}
    (h : scaleBits? factor = some scale) : AddressReading.factorOf scale = factor := by
  unfold scaleBits? at h
  split at h <;> cases h <;> rfl

theorem exists_scaleBits?_iff {factor : UInt8} :
    (∃ scale, scaleBits? factor = some scale) ↔ factor ∈ [1, 2, 4, 8] := by
  constructor
  · rintro ⟨scale, h⟩
    unfold scaleBits? at h
    split at h <;> cases h <;> decide
  · intro h
    simp only [List.mem_cons, List.not_mem_nil, or_false] at h
    rcases h with rfl | rfl | rfl | rfl <;> exact ⟨_, rfl⟩

section EncodeWide

variable {a : Address} {mode : Mode} {size : DataSize} {reg : BitVec 3} {enc : EncodedAddress}

theorem checkIndex_eq_ok {index : Option Register} :
    checkIndex index = .ok () ↔ ∀ r, index = some r → r.number ≠ 4 := by
  unfold checkIndex
  cases index <;> grind

/-- The extension bits of the registers of an address. -/
def extension (a : Address) : Rex :=
  { Rex.empty with x := a.index.any Register.isExtended, b := a.base.any Register.isExtended }

/-- The addresses that have bytes in 32-bit and 64-bit addressing, and what these are: a distance
from the instruction, a displacement with or without an index, or a base. -/
theorem encode_eq_ok (hsize : size ≠ .bit16) :
    a.encode size reg mode = .ok enc ↔
      (a.ripRelative = true ∧ a.base = none ∧ a.index = none ∧
          enc = ⟨[ModRM.byte ⟨0b00, reg, 0b101⟩], some (.relative a.displacementOrZero .bit32),
            .empty⟩) ∨
        (a.ripRelative = false ∧ checkIndex a.index = .ok () ∧
          ∃ scale, scaleBits? a.scale = some scale ∧
            ((a.base = none ∧ enc = a.encodeBaseless size reg mode scale a.extension) ∨
              ∃ base, a.base = some base ∧
                enc = a.encodeBased base size reg scale a.extension)) := by
  simp only [encode, if_neg hsize]
  cases hrip : a.ripRelative with
  | true => cases a.base <;> cases a.index <;> grind
  | false =>
    cases hscale : scaleBits? a.scale with
    | none => simp
    | some scale =>
      cases hcheck : checkIndex a.index with
      | error e => simp [bind, Except.bind]
      | ok _ =>
        cases hbase : a.base with
        | none => simp [bind, Except.bind, extension, hbase, Rex.empty, eq_comm]
        | some base => simp [bind, Except.bind, encodeBased, extension, hbase, eq_comm]

theorem indexOf_index {index : Register} {scale : BitVec 2} (base : BitVec 3)
    (hgeneral : index.isGeneral ∧ index.size = size) (hsize : size ≠ .bit8)
    (hindex : index.number ≠ 4) (hscale : scaleBits? a.scale = some scale) :
    AddressReading.indexOf size index.isExtended ⟨scale, index.low, base⟩ =
      some (index, a.scale) := by
  rw [AddressReading.indexOf, if_neg (hindex ∘ (isExtended_low_iff index).1),
    registerOf_low hgeneral hsize, factorOf_of_scaleBits? hscale]
  rfl

variable (hrip : a.ripRelative = false) (hsize : size = .bit32 ∨ size = .bit64)
  (hregisters : ∀ r ∈ a.registers, r.isGeneral ∧ r.size = size) {scale : BitVec 2}
  (hscale : scaleBits? a.scale = some scale) (hindex : checkIndex a.index = .ok ())

include hrip hsize hregisters hscale hindex

/-- The bytes of an address without a base are read as that address. -/
theorem encodeBaseless_isReadAs (hbase : a.base = none) :
    ∃ r, a.IsReadAs size reg (a.encodeBaseless size reg mode scale a.extension).displacement r ∧
      ∀ rest, readAddress mode size a.extension.x a.extension.b
        ((a.encodeBaseless size reg mode scale a.extension).bytes ++ rest) = some (r, rest) := by
  have h16 : size ≠ .bit16 := by rintro rfl; simp at hsize
  have h8 : size ≠ .bit8 := by rintro rfl; simp at hsize
  have hwidth : some .bit32 = (some (fullDisplacement a.displacementOrZero .bit32 size)).map
      Field.size := by
    unfold fullDisplacement
    split <;> rfl
  unfold encodeBaseless
  cases hi : a.index with
  | some index =>
    have hx : a.extension.x = index.isExtended := by simp [extension, hi]
    have hfound := indexOf_index 0b101 (hregisters index (by simp [registers, hi])) h8
      (checkIndex_eq_ok.1 hindex index hi) hscale
    refine ⟨_, ?_, readAddress_ofSib h16 (by decide) ⟨scale, index.low, 0b101⟩ _ _⟩
    refine ⟨rfl, fun _ => ⟨hbase.symm, ?_⟩, fun h => absurd h h16, hrip.symm, hwidth⟩
    rw [hi, hx]
    exact hfound
  | none =>
    have hx : a.extension.x = false := by simp [extension, hi]
    by_cases hmode : mode = .bit64
    · simp only [if_pos hmode]
      refine ⟨_, ?_, readAddress_ofSib h16 (by decide) ⟨0, 0b100, 0b101⟩ _ _⟩
      refine ⟨rfl, fun _ => ⟨hbase.symm, ?_⟩, fun h => absurd h h16, hrip.symm, hwidth⟩
      rw [hi, hx]
      rfl
    · simp only [if_neg hmode]
      refine ⟨_, ?_, readAddress_ofModRM h16 (by decide) (by decide) _ _⟩
      refine ⟨rfl, fun _ => ⟨hbase.symm, hi ▸ rfl⟩, fun h => absurd h h16, ?_, hwidth⟩
      rw [hrip]
      exact decide_eq_false hmode

/-- The bytes of an address with a base are read as that address. -/
theorem encodeBased_isReadAs {base : Register} (hbase : a.base = some base) :
    ∃ r, a.IsReadAs size reg (a.encodeBased base size reg scale a.extension).displacement r ∧
      ∀ rest, readAddress mode size a.extension.x a.extension.b
        ((a.encodeBased base size reg scale a.extension).bytes ++ rest) = some (r, rest) := by
  have h16 : size ≠ .bit16 := by rintro rfl; simp at hsize
  have h8 : size ≠ .bit8 := by rintro rfl; simp at hsize
  have hform : a.IsDisplacementForm (base.low = 0b101) .bit32 size _ _ :=
    displacementForm_isDisplacementForm hrip (.inr ⟨rfl, hsize⟩) _
  have hne : ¬ ((displacementForm a.displacement (base.low = 0b101) .bit32 size).1 = 0b00 ∧
      base.low = 0b101) := fun h => hform.mod_of_needed (decide_eq_true h.2) h.1
  have hb : a.extension.b = base.isExtended := by simp [extension, hbase]
  have hfoundBase := registerOf_low (hregisters base (by simp [registers, hbase])) h8
  unfold encodeBased
  cases hi : a.index with
  | some index =>
    have hx : a.extension.x = index.isExtended := by simp [extension, hi]
    have hfound := indexOf_index base.low (hregisters index (by simp [registers, hi])) h8
      (checkIndex_eq_ok.1 hindex index hi) hscale
    refine ⟨_, ?_, readAddress_ofSib h16 hform.mod_ne ⟨scale, index.low, base.low⟩ _ _⟩
    rw [AddressReading.ofSib_of_ne _ _ hne, hb, hx, hfound, hfoundBase]
    exact ⟨rfl, fun _ => ⟨hbase.symm, hi ▸ rfl⟩, fun h => absurd h h16, hrip.symm, hform.width⟩
  | none =>
    have hx : a.extension.x = false := by simp [extension, hi]
    by_cases hsib : base.low = 0b100
    · simp only [if_pos hsib]
      refine ⟨_, ?_, readAddress_ofSib h16 hform.mod_ne ⟨scale, 0b100, base.low⟩ _ _⟩
      rw [AddressReading.ofSib_of_ne _ _ hne, hb, hx, hfoundBase]
      exact ⟨rfl, fun _ => ⟨hbase.symm, hi ▸ rfl⟩, fun h => absurd h h16, hrip.symm, hform.width⟩
    · simp only [if_neg hsib]
      refine ⟨_, ?_, readAddress_ofModRM h16 hform.mod_ne hsib _ _⟩
      rw [AddressReading.ofModRM_of_ne _ hne, hb, hfoundBase]
      exact ⟨rfl, fun _ => ⟨hbase.symm, hi ▸ rfl⟩, fun h => absurd h h16, hrip.symm, hform.width⟩

omit hrip hregisters hscale hindex

/-- The bytes of an address say what it is, if its registers have the width of the address and
outside 64-bit mode need no REX prefix. -/
theorem encode_isWrittenAs (hregisters : a.ripRelative = false → ∀ r ∈ a.registers,
      r.isGeneral ∧ r.size = size)
    (hlegacy : mode ≠ .bit64 → a.ripRelative = false ∧ a.usesExtended = false)
    (h : a.encode size reg mode = .ok enc) : a.IsWrittenAs mode size reg enc := by
  have h16 : size ≠ .bit16 := by rintro rfl; simp at hsize
  have hextension (hmode : mode ≠ .bit64) : a.extension = .empty := by
    have hnone := (hlegacy hmode).2
    simp only [usesExtended, registers, List.any_append, Bool.or_eq_false_iff] at hnone
    cases hb : a.base <;> cases hi : a.index <;> simp_all [extension, Rex.empty]
  obtain ⟨hrip, hbase, hindex, rfl⟩ | ⟨hrip, hindex, scale, hscale, h⟩ := (encode_eq_ok h16).1 h
  · have hmode : mode = .bit64 := by
      apply Decidable.byContradiction
      intro hmode
      rw [(hlegacy hmode).1] at hrip
      cases hrip
    refine ⟨⟨_, ?_, readAddress_ofModRM h16 (by decide) (by decide) _ _⟩, ?_, fun _ => rfl⟩
    · refine ⟨rfl, fun _ => ⟨hbase.symm, hindex ▸ rfl⟩, fun h => absurd h h16, ?_, rfl⟩
      rw [hrip]
      exact decide_eq_true hmode
    · apply isDisplacedBy_some rfl
      · simp [hrip, Field.relative]
      · change DataSize.bits .bit32 ≤ size.bits
        rcases hsize with rfl | rfl <;> decide
      · nofun
      · nofun
  · obtain ⟨hbase, rfl⟩ | ⟨base, hbase, rfl⟩ := h
    · exact ⟨encodeBaseless_isReadAs hrip hsize (hregisters hrip) hscale hindex hbase,
        isDisplacedBy_full hrip (.inr ⟨rfl, hsize⟩), hextension⟩
    · have hform : a.IsDisplacementForm (base.low = 0b101) .bit32 size _ _ :=
        displacementForm_isDisplacementForm hrip (.inr ⟨rfl, hsize⟩) _
      have hrex : (a.encodeBased base size reg scale a.extension).rex = a.extension := by
        simp [encodeBased, extension, hbase]
      refine ⟨?_, hform.isDisplacedBy, hrex ▸ hextension⟩
      rw [hrex]
      exact encodeBased_isReadAs hrip hsize (hregisters hrip) hscale hindex hbase

/-- Whether an address has bytes can be told from its parts. -/
theorem exists_encode_iff
    (hregisters : a.ripRelative = false → ∀ r ∈ a.registers, r.isGeneral ∧ r.size = size) :
    (∃ enc, a.encode size reg mode = .ok enc) ↔ a.IsEncodable size := by
  have h16 : size ≠ .bit16 := by rintro rfl; simp at hsize
  have hcheck (hrip : a.ripRelative = false) : checkIndex a.index = .ok () ↔
      a.index ≠ some .esp ∧ a.index ≠ some .rsp := by
    rw [checkIndex_eq_ok]
    cases hi : a.index with
    | none => simp
    | some index =>
      have hnumber := number_eq_four_iff (hregisters hrip index (by simp [registers, hi])) hsize
      grind
  simp only [encode_eq_ok h16, IsEncodable, if_neg h16, ← exists_scaleBits?_iff]
  cases hrip : a.ripRelative with
  | true => simp
  | false =>
    rw [← hcheck hrip]
    cases a.base <;> grind

end EncodeWide

variable {f : Form} {operands : List Operand} {a : Address} {mode : Mode} {size : DataSize}

/-- What an operand of a valid form outside 64-bit mode does without. -/
theorem isLegacy_of_isValidIn (hvalid : f.isValidIn operands mode) (ha : .memory a ∈ operands)
    (hmode : mode ≠ .bit64) : a.ripRelative = false ∧ a.usesExtended = false := by
  have hall : operands.all (Form.isLegacyOperand mode) = true := by
    cases mode with
    | bit64 => exact absurd rfl hmode
    | bit16 | bit32 =>
      simp only [Form.isValidIn, Bool.and_eq_true] at hvalid
      exact hvalid.2.2
  have hlegacy := List.all_eq_true.1 hall _ ha
  simp only [Form.isLegacyOperand, Bool.and_eq_true, Bool.not_eq_true'] at hlegacy
  exact hlegacy.1

/-- A memory operand has bytes exactly if its address is encodable, and a processor that reads them
finds the address. -/
theorem encode_roundTrip (hvalid : f.isValidIn operands mode) (ha : .memory a ∈ operands)
    (hsize : a.effectiveSize mode = .ok size) (hlegal : size ∈ mode.addressSizes)
    (reg : BitVec 3) :
    ((∃ enc, a.encode size reg mode = .ok enc) ↔ a.IsEncodable size) ∧
      ∀ enc, a.encode size reg mode = .ok enc → a.IsWrittenAs mode size reg enc := by
  have hlegacy := isLegacy_of_isValidIn hvalid ha
  by_cases h16 : size = .bit16
  · subst h16
    have hmode : mode ≠ .bit64 := by rintro rfl; simp [Mode.addressSizes] at hlegal
    exact ⟨exists_encode16_iff, fun enc => encode16_isWrittenAs (hlegacy hmode).1⟩
  · have hwide : size = .bit32 ∨ size = .bit64 := by
      cases mode <;> simp_all [Mode.addressSizes]
    exact ⟨exists_encode_iff hwide (size_of_effectiveSize hsize),
      fun enc => encode_isWrittenAs hwide (size_of_effectiveSize hsize) hlegacy⟩

/-- `[r13 + r12*8]`: the index has the low bits of no index, and the base those of no base. -/
def scaledTable : Address :=
  { Address.new .bit64 with base := some .r13, index := some .r12, scale := 8 }

/-- The address is written with a displacement of zero and with a scaled index, and read back. -/
theorem encode_roundTrip_scaledTable :
    scaledTable.IsEncodable .bit64 ∧
      ∃ enc r, scaledTable.encode .bit64 0b001 .bit64 = .ok enc ∧ enc.bytes = [0x4C, 0xE5] ∧
        readAddress .bit64 .bit64 true true [0x4C, 0xE5] = some (r, []) ∧ r.reg = 0b001 ∧
        r.base = some .r13 ∧ r.index = some (.r12, 8) ∧ r.displacement = some .bit8 := by
  have hvalid : (Form.of [0x8B] [.reg .bit64, .rm .bit64]).op64.isValidIn
      [.register .rcx, .memory scaledTable] .bit64 := by decide
  have hsize : scaledTable.effectiveSize .bit64 = .ok .bit64 := rfl
  obtain ⟨hiff, hwritten⟩ := encode_roundTrip hvalid
    (List.mem_cons_of_mem _ List.mem_cons_self) hsize (by decide) 0b001
  have hencodable : scaledTable.IsEncodable .bit64 := .inr ⟨rfl, by decide, by decide, by decide⟩
  obtain ⟨enc, henc⟩ := hiff.2 hencodable
  have hbytes : scaledTable.encode .bit64 0b001 .bit64 =
      .ok ⟨[0x4C, 0xE5], some (shortDisplacement (.constant 0) .bit64),
        ⟨false, false, true, true⟩⟩ := rfl
  obtain rfl := Except.ok.inj (hbytes.symm.trans henc)
  obtain ⟨⟨r, hr, hread⟩, -, -⟩ := hwritten _ henc
  obtain ⟨hbase, hindex⟩ := hr.registers (by decide)
  exact ⟨hencodable, _, r, henc, rfl, hread [], hr.reg, hbase, hindex, hr.displacement⟩

end Address

end Assembler
