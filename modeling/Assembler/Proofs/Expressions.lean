import Assembler.Proofs.AddressRoundTrip
import Assembler.Proofs.Resumption
import Assembler.Proofs.Selection

/-!
# Expressions of a program

The expressions that a section is written with, and what becomes of those that wait for the second
pass: a field of an item holds one of them, or a displacement that the program does not state, and
it takes up room (`Field.IsFrom`). `Instruction.encode_isFrom` follows the operands of an
instruction into its fields, `Statement.place_isFrom` the expressions of a leaf, and
`ObjectFile.construct_isFrom` those of a section.
-/

namespace Assembler

/-- The expressions of an operand. -/
def Operand.exprs : Operand → List Expr
  | .register _ => []
  | .immediate imm => [imm.expr]
  | .memory a => a.displacement.toList
  | .offset m => [m.address]
  | .branch b => [b.target]

/-- The expressions of an instruction. -/
def Instruction.exprs (i : Instruction) : List Expr := i.operands.flatMap Operand.exprs

/-- The expressions of a declaration. -/
def DataDeclaration.exprs : DataDeclaration → List Expr
  | .values _ exprs => exprs
  | _ => []

/-- The expressions of a leaf. -/
def Statement.exprs : Statement → List Expr
  | .define _ expr _ => [expr]
  | .data declaration => declaration.exprs
  | .instruction i => i.exprs
  | _ => []

instance Expr.decidableIsFunctionFree : (e : Expr) → Decidable e.IsFunctionFree
  | .unary _ e => decidableIsFunctionFree e
  | .binary _ l r => @instDecidableAnd _ _ (decidableIsFunctionFree l) (decidableIsFunctionFree r)
  | .function _ _ => isFalse id
  | .constant _ | .position | .sectionStart | .reference _ => isTrue trivial

namespace Section

/-- The expressions of a section, in the order of its leaves. -/
def exprs (s : Section) : List Expr := (Statement.allLeaves s.contents).flatMap Statement.exprs

/-- Every expression of the section is spelled out. -/
def IsFunctionFree (s : Section) : Prop := ∀ e ∈ s.exprs, e.IsFunctionFree

instance : DecidablePred IsFunctionFree := fun s =>
  inferInstanceAs (Decidable (∀ e ∈ s.exprs, e.IsFunctionFree))

theorem IsFunctionFree.of_mem {s : Section} (h : s.IsFunctionFree) {leaf : Statement}
    (hleaf : leaf ∈ Statement.allLeaves s.contents) : ∀ e ∈ leaf.exprs, e.IsFunctionFree :=
  fun e he => h e (List.mem_flatMap.2 ⟨leaf, hleaf, he⟩)

end Section

/-- A field that comes from these expressions: it is to hold one of them, or a displacement that is
not stated, and takes up room. -/
structure Field.IsFrom (exprs : List Expr) (f : Field) : Prop where
  expr : f.expr ∈ exprs ∨ f.expr = .constant 0
  size : 0 < f.size.bytes

theorem Field.IsFrom.mono {f : Field} {exprs more : List Expr} (h : f.IsFrom exprs)
    (hsub : ∀ e ∈ exprs, e ∈ more) : f.IsFrom more :=
  ⟨h.expr.imp_left (hsub _), h.size⟩

/-! ## Displacements -/

namespace Address

variable {a : Address} {size full : DataSize} {reg : BitVec 3} {mode : Mode} {f : Field}

/-- The field of an address: it holds the displacement, zero if none is stated, and is no operand of
its own. -/
structure IsDisplacement (a : Address) (f : Field) : Prop where
  expr : f.expr = a.displacementOrZero
  operand : f.operand = none
  size : f.size.bytes ∈ [1, 2, 4]

theorem IsDisplacement.isFrom (h : a.IsDisplacement f) : f.IsFrom a.displacement.toList := by
  refine ⟨?_, ?_⟩
  · rw [h.expr, displacementOrZero]
    cases a.displacement with
    | none => exact .inr rfl
    | some e => exact .inl (by simp)
  · have hsize := h.size
    simp only [List.mem_cons, List.not_mem_nil, or_false] at hsize
    omega

theorem fullDisplacement_isDisplacement (hfull : full.bytes ∈ [1, 2, 4]) :
    a.IsDisplacement (fullDisplacement a.displacementOrZero full size) := by
  unfold fullDisplacement
  split <;> exact ⟨rfl, rfl, hfull⟩

/-- The field that is chosen for a displacement holds it. -/
theorem displacementForm_isDisplacement (hfull : full.bytes ∈ [1, 2, 4]) (needed : Bool)
    (h : (displacementForm a.displacement needed full size).2 = some f) : a.IsDisplacement f := by
  have hshort : a.IsDisplacement (shortDisplacement a.displacementOrZero size) :=
    ⟨rfl, rfl, (by decide : DataSize.bit8.bytes ∈ [1, 2, 4])⟩
  have hlong : a.IsDisplacement (fullDisplacement a.displacementOrZero full size) :=
    fullDisplacement_isDisplacement hfull
  unfold displacementForm at h
  unfold displacementOrZero at hshort hlong
  cases hd : a.displacement with
  | none =>
    rw [hd] at h hshort
    cases needed with
    | false => cases h
    | true =>
      cases h
      exact hshort
  | some d =>
    simp only [hd, Option.getD_some] at h hshort hlong
    split at h
    · split at h
      · cases h
      · split at h
        · cases h
          exact hshort
        · cases h
          exact hlong
    · cases h
      exact hlong

/-- The displacement of an address is the one that it states. -/
theorem encode_isDisplacement {enc : EncodedAddress} (h : a.encode size reg mode = .ok enc)
    (hf : enc.displacement = some f) : a.IsDisplacement f := by
  have h16 : DataSize.bit16.bytes ∈ [1, 2, 4] := by decide
  have h32 : DataSize.bit32.bytes ∈ [1, 2, 4] := by decide
  by_cases hsize : size = .bit16
  · rw [encode, if_pos hsize, encode16_eq_ok] at h
    obtain ⟨-, ⟨-, -, rfl⟩ | ⟨-, rm, -, rfl⟩⟩ := h
    · cases hf
      exact ⟨rfl, rfl, h16⟩
    · exact displacementForm_isDisplacement h16 _ hf
  · obtain ⟨-, -, -, rfl⟩ | ⟨-, -, scale, -, ⟨-, rfl⟩ | ⟨base, -, rfl⟩⟩ := (encode_eq_ok hsize).1 h
    · cases hf
      exact ⟨rfl, rfl, h32⟩
    · cases hf
      exact fullDisplacement_isDisplacement h32
    · exact displacementForm_isDisplacement h32 _ hf

end Address

/-! ## Instructions -/

/-- Whether an operand of this shape becomes a field of the shape's width. -/
def Shape.isTrailing : Shape → Bool
  | .immediate _ => true
  | .branch _ => true
  | _ => false

/-- Whether an operand is a number that stands behind the other bytes. -/
def Operand.isNumber : Operand → Bool
  | .immediate _ => true
  | .branch _ => true
  | _ => false

namespace Form

variable {f : Form} {operands : List Operand} {mode : Mode}

theorem Fits.isTrailing {slot : Slot} {op : Operand} (h : f.Fits operands slot op)
    (hop : op.isNumber) : slot.shape.isTrailing := by
  obtain ⟨known, h⟩ := h
  unfold acceptsOperand at h
  cases hshape : slot.shape <;> cases op <;> simp_all [Operand.isNumber, Shape.isTrailing]

/-- The widths of the immediates and branches of the opcode table. -/
theorem size_of_isTrailing : ∀ op ∈ OpcodeTable.opcodes, ∀ f ∈ op.forms, ∀ slot ∈ f.slots,
    slot.shape.isTrailing → slot.shape.size.bytes ∈ [1, 2, 4, 8] := by
  decide +kernel

theorem addressBytes_size {size : Option DataSize} {bytes : List UInt8}
    (h : addressBytes mode size = .ok bytes) :
    (size.getD mode.addressSize).bytes ∈ [1, 2, 4, 8] := by
  cases size with
  | none => cases mode <;> decide
  | some size => cases mode <;> cases size <;> first | decide | cases h

/-- What stands in ModRM.rm is an operand. -/
theorem mem_of_assign_rm {op : Operand} (h : (f.assign operands).rm = some op) : op ∈ operands := by
  simp only [assign_eq, Assignment.placeAll, Option.or_none] at h
  obtain ⟨⟨slot, op⟩, hpair, rfl⟩ := List.mem_map.mp (List.mem_of_getLast? h)
  exact (List.of_mem_zip (List.mem_filter.mp hpair).1).2

/-- A displacement is that of the memory operand in ModRM.rm. -/
theorem operandBytes_isDisplacement {a : Assignment} {size : DataSize} {tail : EncodedAddress}
    (h : operandBytes a size mode = .ok tail) {field : Field}
    (hfield : tail.displacement = some field) :
    ∃ m, a.rm = some (.memory m) ∧ m.IsDisplacement field := by
  unfold operandBytes at h
  split at h
  · cases h
    cases hfield
  next m hm => exact ⟨m, hm, Address.encode_isDisplacement h hfield⟩
  · cases h
    cases hfield

/-- The field of an operand holds its expression, in the width of the slot or of addresses. -/
theorem operandField?_eq_some {size : DataSize} (hsize : size.bytes ∈ [1, 2, 4, 8]) {slot : Slot}
    {op : Operand} (hfits : f.Fits operands slot op)
    (hslot : slot.shape.isTrailing → slot.shape.size.bytes ∈ [1, 2, 4, 8]) {field : Field}
    (h : f.operandField? size slot op = some field) :
    op.exprs = [field.expr] ∧ field.size.bytes ∈ [1, 2, 4, 8] := by
  cases op with
  | register | memory => cases h
  | immediate imm =>
    simp only [operandField?, Option.some.injEq] at h
    subst h
    split <;> exact ⟨rfl, hslot (hfits.isTrailing rfl)⟩
  | offset m =>
    cases h
    exact ⟨rfl, hsize⟩
  | branch b =>
    cases h
    exact ⟨rfl, hslot (hfits.isTrailing rfl)⟩

end Form

/-- The fields of an instruction come from its operands. -/
theorem Instruction.encode_isFrom {i : Instruction} {mode : Mode} {known : KnownValues}
    {encoded : Encoded} (h : i.encode mode known = .ok encoded) :
    ∀ field ∈ encoded.fields, field.IsFrom i.exprs := by
  obtain ⟨form, hselect, h⟩ := exceptBind_eq_ok.1 h
  obtain ⟨⟨bytes, fields⟩, hencode, h⟩ := exceptBind_eq_ok.1 h
  cases h
  have htakes := (takes_of_select hselect).1
  have hslots : ∀ slot ∈ form.slots,
      slot.shape.isTrailing → slot.shape.size.bytes ∈ [1, 2, 4, 8] := by
    obtain ⟨op, hop, -, hform⟩ :=
      OpcodeTable.mem_formsOf.1 (List.mem_of_find?_eq_some (select_eq_ok_iff.1 hselect))
    exact Form.size_of_isTrailing op hop form hform
  have hmono {op : Operand} (hop : op ∈ i.operands) {field : Field}
      (hfield : field.IsFrom op.exprs) :
      field.IsFrom i.exprs :=
    hfield.mono fun e he => List.mem_flatMap.2 ⟨op, hop, he⟩
  unfold Form.encode at hencode
  simp only [exceptBind_eq_ok] at hencode
  obtain ⟨_, -, size, -, _, haddress, tail, htail, _, -, hencode⟩ := hencode
  cases hencode
  intro field hfield
  rcases List.mem_append.1 hfield with hdisplacement | hoperand
  · obtain ⟨m, hm, hfrom⟩ := Form.operandBytes_isDisplacement htail (by simpa using hdisplacement)
    exact hmono (Form.mem_of_assign_rm hm) hfrom.isFrom
  · obtain ⟨⟨⟨slot, op⟩, index⟩, hpair, hfield⟩ := List.mem_filterMap.1 hoperand
    have hmem : (slot, op) ∈ form.pair i.operands := List.fst_mem_of_mem_zipIdx hpair
    obtain ⟨plain, hplain, rfl⟩ := Option.map_eq_some_iff.1 hfield
    obtain ⟨hexprs, hsize⟩ := Form.operandField?_eq_some (Form.addressBytes_size haddress)
      (htakes.fits hmem) (hslots slot (List.of_mem_zip hmem).1) hplain
    refine hmono (List.of_mem_zip hmem).2 ⟨.inl ?_, ?_⟩
    · rw [hexprs]
      exact List.mem_singleton.2 rfl
    · simp only [List.mem_cons, List.not_mem_nil, or_false] at hsize
      change 0 < plain.size.bytes
      omega

/-! ## Data -/

namespace DataDeclaration

/-- A declared value is settled, or left to a field. -/
theorem valueItem_isFrom {size : DataSize} (hsize : isValueSize size) {e : Expr} {item : Item}
    (h : valueItem size e = .ok item) : ∀ f ∈ item.fields, f.IsFrom [e] := by
  unfold valueItem at h
  split at h
  · split at h
    · cases h
      exact fun f hf => nomatch hf
    · cases h
  · cases h
    intro f hf
    obtain rfl := List.mem_singleton.1 hf
    refine ⟨.inl (List.mem_singleton.2 rfl), ?_⟩
    change 0 < size.bytes
    cases size <;> first | decide | cases hsize

/-- The fields of declared values hold the values. -/
theorem mapM_valueItem_isFrom {size : DataSize} (hsize : isValueSize size) {exprs : List Expr}
    {items : List Item} (h : exprs.mapM (valueItem size) = .ok items) :
    ∀ item ∈ items, ∀ f ∈ item.fields, f.IsFrom exprs := by
  induction exprs generalizing items with
  | nil =>
    cases h
    exact fun item hitem => nomatch hitem
  | cons e exprs ih =>
    rw [List.mapM_cons] at h
    obtain ⟨first, hfirst, h⟩ := exceptBind_eq_ok.1 h
    obtain ⟨rest, hrest, h⟩ := exceptBind_eq_ok.1 h
    cases h
    intro item hitem f hf
    rcases List.mem_cons.1 hitem with rfl | hitem
    · exact (valueItem_isFrom hsize hfirst f hf).mono (by simp)
    · exact (ih hrest item hitem f hf).mono (by simp +contextual)

/-- The fields of a data declaration hold its expressions. -/
theorem items_isFrom {d : DataDeclaration} {items : List Item} (h : d.items = .ok items) :
    ∀ item ∈ items, ∀ f ∈ item.fields, f.IsFrom d.exprs := by
  cases d with
  | bytes content =>
    cases h
    simp [Item.fields]
  | reserve size count =>
    simp only [DataDeclaration.items] at h
    split at h
    · cases h
      simp [Item.fields]
    · cases h
  | values size exprs =>
    simp only [DataDeclaration.items] at h
    split at h
    next hsize => exact mapM_valueItem_isFrom hsize h
    · cases h

end DataDeclaration

/-! ## Placed programs -/

namespace Statement

/-- The fields of what is placed come from the expressions of the leaf. -/
theorem place_isFrom {leaf : Statement} {ctx after : Context} {items : List Item}
    (h : leaf.place ctx = .ok items after) :
    ∀ item ∈ items, ∀ f ∈ item.fields, f.IsFrom leaf.exprs := by
  cases leaf with
  | label | external | define => simp [place_items_of_declares h rfl]
  | align boundary fill =>
    rw [place_align_apply] at h
    split at h
    next padded hpadded =>
      cases h
      unfold padding at hpadded
      split at hpadded
      · cases hpadded
      · cases hpadded
        split <;> simp [Item.fields]
    · cases h
  | data declaration =>
    rw [place_data_apply] at h
    split at h
    next made hmade =>
      cases h
      exact DataDeclaration.items_isFrom hmade
    · cases h
  | comment | group =>
    cases h
    simp
  | instruction i =>
    obtain ⟨⟨encoded, hencode, rfl⟩, -⟩ := place_instruction_eq_ok.1 h
    intro item hitem f hf
    obtain rfl := List.mem_singleton.1 hitem
    exact Instruction.encode_isFrom hencode f hf

end Statement

/-- The fields of a placed section come from its expressions. -/
theorem Section.construct_isFrom {s : Section} {id : SectionId} {stop : Word} {ctx after : Context}
    {p : PlacedSection} (h : s.construct id stop ctx = .ok p after) :
    ∀ item ∈ p.items, ∀ f ∈ item.fields, f.IsFrom s.exprs := by
  obtain ⟨-, hitems, -⟩ := construct_ok h
  intro item hitem f hf
  obtain ⟨i, hi⟩ := List.mem_iff_getElem?.1 hitem
  obtain ⟨j, leaf, made, mid, own, placed, m, hj, -, hplace, -, hm⟩ :=
    Statement.constructAll_getElem? (Statement.isLeaf_of_mem_allLeaves _) hitems hi
  refine (Statement.place_isFrom hplace item (List.mem_of_getElem? hm) f hf).mono fun e he => ?_
  exact List.mem_flatMap.2 ⟨leaf, List.mem_of_getElem? hj, he⟩

namespace ObjectFile

variable {obj built : ObjectFile}

/-- Every place was laid out as the section of its number, and the sections behind it after it. -/
theorem exists_construct_of_placed (h : obj.construct = (.ok (), built)) {k : SectionId}
    {s : Section} {p : PlacedSection} (hs : built.sections[k]? = some s)
    (hp : built.placed[k]? = some p) :
    ∃ stop mid next rest, s.construct k stop mid = .ok p next ∧
      constructSections (k + 1) p.stop [] next (built.sections.drop (k + 1)) =
        (.ok (), built.context, rest) := by
  obtain ⟨hrun, hsections, -, -⟩ := construct_ok h
  rw [← hsections] at hrun
  obtain ⟨before, mid, q, next, rest, -, hlength, hq, hrest, hplaced⟩ :=
    constructSections_split hrun hs
  obtain rfl : q = p := by simpa [hplaced, ← hlength] using hp
  rw [Nat.zero_add] at hq hrest
  exact ⟨_, mid, next, rest, hq, hrest⟩

theorem construct_isFrom (h : obj.construct = (.ok (), built)) {k : SectionId} {s : Section}
    {p : PlacedSection} (hs : built.sections[k]? = some s) (hp : built.placed[k]? = some p) :
    ∀ item ∈ p.items, ∀ f ∈ item.fields, f.IsFrom s.exprs := by
  obtain ⟨stop, mid, next, rest, hsection, -⟩ := exists_construct_of_placed h hs hp
  exact Section.construct_isFrom hsection

/-- Where the program is spelled out, so are the fields that are left to the second pass. -/
theorem construct_isFunctionFree (h : obj.construct = (.ok (), built))
    (hfree : ∀ s ∈ obj.sections, s.IsFunctionFree) :
    ∀ p ∈ built.placed, ∀ item ∈ p.items, ∀ f ∈ item.fields, f.expr.IsFunctionFree := by
  intro p hp item hitem f hf
  obtain ⟨hrun, hsections, -⟩ := construct_ok h
  obtain ⟨k, hk⟩ := List.mem_iff_getElem?.1 hp
  obtain ⟨s, hs⟩ : ∃ s, built.sections[k]? = some s := by
    have hlt := (List.getElem?_eq_some_iff.1 hk).1
    rw [(constructSections_isFilled hrun).1, ← hsections] at hlt
    exact ⟨_, List.getElem?_eq_getElem hlt⟩
  have hmem : s ∈ obj.sections := hsections ▸ List.mem_of_getElem? hs
  rcases (construct_isFrom h hs hk item hitem f hf).expr with hexpr | hzero
  · exact hfree s hmem f.expr hexpr
  · rw [hzero]
    trivial

end ObjectFile

end Assembler
