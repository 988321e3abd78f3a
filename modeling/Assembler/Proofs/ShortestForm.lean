import Assembler.Proofs.InstructionLength

/-!
# The first form is the shortest

Selection takes the first form that accepts the operands, and never compares lengths. That this is a
shortest encoding is a property of the order of the opcode table.

What a form takes is followed by the kinds of operands alone (`Form.kindsOf`), so that it is decided
for the whole table which forms can accept the same operands (`Form.overlaps`). Of two such forms
the earlier one is no longer than the later one (`OpcodeTable.pairwise_forms`), with one exception:
`mov` has the 64-bit form with a sign-extended immediate behind the one with a full immediate. Where
the value is known that does no harm, as a twin of the shorter form stands before both, for known
values only.

Two forms that take the same operands differ in what `Form.length` counts and in nothing else
(`Form.Takes.encode_of_encode`). Main statement: `Instruction.select_isShortest`.
-/

namespace Assembler

/-- What the choice of a form can depend on, the value of an immediate apart. -/
inductive OperandKind
  | register (cls : RegisterClass) (size : DataSize)
  | immediate
  | memory (size : DataSize)
  | offset (size : DataSize)
  | branch
deriving DecidableEq

/-- The kind of an operand. -/
def Operand.kind : Operand → OperandKind
  | .register r => .register r.cls r.size
  | .immediate _ => .immediate
  | .memory a => .memory a.size
  | .offset m => .offset m.size
  | .branch _ => .branch

namespace Form

/-- The widths of memory operands that a slot of the given width can take. One without a width
borrows it from a register or an immediate of the form. -/
def memoryWidths (f : Form) (size : DataSize) : List DataSize :=
  DataSize.all.filter fun width =>
    size = .unsized || width = size || (width = .unsized &&
      (f.hasRegisterOf size || f.slots.any fun slot => slot.shape = .immediate size))

/-- The kinds of operands that a slot of the form can take, branch distances apart. -/
def kindsOf (f : Form) : Shape → List OperandKind
  | .fixed r => [.register r.cls r.size]
  | .register cls size => [.register cls size]
  | .registerOrMemory cls size => .register cls size :: (f.memoryWidths size).map .memory
  | .memory size => (f.memoryWidths size).map .memory
  | .immediate _ => [.immediate]
  | .offset size => [.offset size]
  | .branch _ => []

/-- Whether two forms can accept the same operands. -/
def overlaps (f g : Form) : Bool :=
  f.slots.length = g.slots.length &&
    (f.slots.zip g.slots).all fun (s, t) => (f.kindsOf s.shape).any (· ∈ g.kindsOf t.shape)

/-- A form whose instructions are no longer than those of another, in the modes that have both. -/
def IsNoLonger (f g : Form) : Prop :=
  f.wideRex = g.wideRex ∧ ∀ mode ∈ [Mode.bit16, .bit32, .bit64],
    f.modes.contains mode → g.modes.contains mode → f.length mode ≤ g.length mode

instance (f g : Form) : Decidable (f.IsNoLonger g) := inferInstanceAs (Decidable (_ ∧ _))

end Form

/-- Of two forms that can accept the same operands the earlier one is no longer, unless the later
one has a twin for known values. -/
theorem OpcodeTable.pairwise_forms : ∀ op ∈ opcodes, op.forms.Pairwise fun f g =>
    f.overlaps g → f.IsNoLonger g ∨ g.needsKnown = false ∧ g.known ∈ op.forms := by
  decide +kernel

/-! ## Forms that accept the same operands -/

namespace Form

variable {f g : Form} {operands : List Operand} {known : KnownValues} {mode : Mode}

/-- A memory operand that a slot accepts has one of the widths of the slot. -/
theorem mem_memoryWidths {size : DataSize} {a : Address} (h : f.acceptsMemory size a operands) :
    a.size ∈ f.memoryWidths size := by
  refine List.mem_filter.2 ⟨DataSize.mem_all _, ?_⟩
  have himmediate (himm : f.hasImmediateOf operands size) :
      f.slots.any fun slot => slot.shape = .immediate size := by
    obtain ⟨⟨slot, op⟩, hpair, hop⟩ := List.any_eq_true.1 himm
    refine List.any_eq_true.2 ⟨slot, (List.of_mem_zip hpair).1, ?_⟩
    dsimp only at hop
    split at hop
    next hshape _ => simp_all
    · cases hop
  simp only [acceptsMemory, Bool.or_eq_true, Bool.and_eq_true] at h ⊢
  exact h.imp_right (And.imp_right (Or.imp_right himmediate))

/-- What a slot accepts is of a kind that it can take. -/
theorem kind_mem_kindsOf {shape : Shape} {op : Operand} {v : Option Word}
    (h : f.acceptsOperand shape op v operands) (hop : op.kind ≠ .branch) :
    op.kind ∈ f.kindsOf shape := by
  unfold acceptsOperand at h
  split at h
  · simp_all [Operand.kind, kindsOf]
  · simp_all [Operand.kind, kindsOf]
  · simp_all [Operand.kind, kindsOf]
  · exact List.mem_cons_of_mem _ (List.mem_map_of_mem (mem_memoryWidths h))
  · exact List.mem_map_of_mem (mem_memoryWidths h)
  · exact List.mem_singleton.2 rfl
  · simp_all [Operand.kind, kindsOf]
  · exact absurd rfl hop
  · cases h

/-- Two forms that accept the same operands overlap. -/
theorem overlaps_of_accepts (hf : f.accepts operands known mode)
    (hg : g.accepts operands known mode) (hbranch : ∀ b, .branch b ∉ operands) : f.overlaps g := by
  have hlength := length_eq_of_accepts hf
  have hlength' := length_eq_of_accepts hg
  simp only [overlaps, Bool.and_eq_true, decide_eq_true_eq, List.all_eq_true]
  refine ⟨hlength.trans hlength'.symm, ?_⟩
  rintro ⟨s, t⟩ hslots
  obtain ⟨k, hk⟩ := List.mem_iff_getElem?.1 hslots
  obtain ⟨hs, ht⟩ := List.getElem?_zip_eq_some.1 hk
  obtain ⟨op, hop⟩ : ∃ op, operands[k]? = some op := by
    have hlt := (List.getElem?_eq_some_iff.1 hs).1
    rw [hlength] at hlt
    exact ⟨_, List.getElem?_eq_getElem hlt⟩
  have hkind : op.kind ≠ .branch := by
    cases op with
    | branch b => exact absurd (List.mem_of_getElem? hop) (hbranch b)
    | register | immediate | memory | offset => nofun
  have haccepts := acceptsOperand_of_accepts hf (List.getElem?_zip_eq_some.2 ⟨hs, hop⟩)
  have haccepts' := acceptsOperand_of_accepts hg (List.getElem?_zip_eq_some.2 ⟨ht, hop⟩)
  exact List.any_eq_true.2 ⟨op.kind, kind_mem_kindsOf haccepts hkind,
    decide_eq_true (kind_mem_kindsOf haccepts' hkind)⟩

/-- A form for known values accepts what the form accepts, where the value is known. -/
theorem acceptsImmediate_known {size : DataSize} {imm : Immediate} {v : Option Word}
    (h : f.acceptsImmediate size imm v) (hv : imm.size = none → v.isSome) :
    f.known.acceptsImmediate size imm v := by
  unfold acceptsImmediate at h ⊢
  cases hsize : imm.size with
  | some explicit =>
    rw [hsize] at h
    exact h
  | none =>
    obtain ⟨v, rfl⟩ := Option.isSome_iff_exists.1 (hv hsize)
    rw [hsize] at h
    exact h

/-- Where the values are known, the twin of a form for known values accepts what the form
accepts. -/
theorem accepts_known (h : f.accepts operands known mode)
    (hknown : ∀ k imm, operands[k]? = some (.immediate imm) → imm.size = none →
      (known.valueAt k).isSome) : f.known.accepts operands known mode := by
  simp only [accepts, Bool.and_eq_true, List.all_eq_true] at h ⊢
  refine ⟨⟨h.1.1, ?_⟩, h.2⟩
  rintro ⟨⟨slot, op⟩, k⟩ hpair
  have haccepts := h.1.2 _ hpair
  have hop := (List.getElem?_zip_eq_some.1 (List.mk_mem_zipIdx_iff_getElem?.1 hpair)).2
  dsimp only at haccepts ⊢
  unfold acceptsOperand at haccepts ⊢
  split at haccepts
  case h_6 imm _ => exact acceptsImmediate_known haccepts (hknown k imm hop)
  all_goals exact haccepts

/-! ## Encodings of the same operands -/

/-- What stands in ModRM.reg changes neither the length of an address nor its displacement. -/
theorem encode_of_reg {a : Address} {size : DataSize} {reg : BitVec 3} {enc : EncodedAddress}
    (h : a.encode size reg mode = .ok enc) (reg' : BitVec 3) :
    ∃ enc', a.encode size reg' mode = .ok enc' ∧ enc'.bytes.length = enc.bytes.length ∧
      enc'.displacement = enc.displacement := by
  by_cases hsize : size = .bit16
  · rw [Address.encode, if_pos hsize] at h ⊢
    obtain ⟨hscale, ⟨hbase, hindex, rfl⟩ | ⟨hsome, rm, hrm, rfl⟩⟩ := Address.encode16_eq_ok.1 h
    · exact ⟨_, Address.encode16_eq_ok.2 ⟨hscale, .inl ⟨hbase, hindex, rfl⟩⟩, rfl, rfl⟩
    · exact ⟨_, Address.encode16_eq_ok.2 ⟨hscale, .inr ⟨hsome, rm, hrm, rfl⟩⟩, rfl, rfl⟩
  · obtain ⟨hrip, hbase, hindex, rfl⟩ | ⟨hrip, hcheck, scale, hscale, hencoded⟩ :=
      (Address.encode_eq_ok hsize).1 h
    · exact ⟨_, (Address.encode_eq_ok hsize).2 (.inl ⟨hrip, hbase, hindex, rfl⟩), rfl, rfl⟩
    obtain ⟨hbase, rfl⟩ | ⟨base, hbase, rfl⟩ := hencoded
    · refine ⟨_, (Address.encode_eq_ok hsize).2
        (.inr ⟨hrip, hcheck, scale, hscale, .inl ⟨hbase, rfl⟩⟩), ?_, rfl⟩
      rw [Address.length_encodeBaseless, Address.length_encodeBaseless]
    · refine ⟨_, (Address.encode_eq_ok hsize).2
        (.inr ⟨hrip, hcheck, scale, hscale, .inr ⟨base, hbase, rfl⟩⟩), ?_, rfl⟩
      rw [Address.length_encodeBased, Address.length_encodeBased]

/-- A REX prefix that is as necessary as another fails where that one fails. -/
theorem rexBytes_of_iff {mnemonic : String} {rex rex' : Rex} {needed needed' : Bool}
    {bytes : List UInt8} (h : rexBytes mnemonic operands mode rex needed = .ok bytes)
    (hiff : (rex = .empty ∧ needed = false) ↔ rex' = .empty ∧ needed' = false) :
    ∃ bytes', rexBytes mnemonic operands mode rex' needed' = .ok bytes' ∧
      bytes'.length = bytes.length := by
  have hsame : (rex = .empty && !needed) = (rex' = .empty && !needed') := by
    rw [Bool.eq_iff_iff]
    simpa using hiff
  unfold rexBytes at h ⊢
  rw [← hsame]
  split at h
  next hnone =>
    rw [if_pos hnone]
    exact ⟨_, rfl, by cases h; rfl⟩
  next hsome =>
    rw [if_neg hsome]
    split at h
    · cases h
    next hmode =>
      rw [if_neg hmode]
      split at h
      · cases h
      next hhigh =>
        cases h
        exact ⟨_, rfl, rfl⟩

namespace Takes

/-- Two forms that take the same operands write as many bytes behind the opcode, apart from the
ModRM byte, and the same displacement. -/
theorem operandBytes_of_operandBytes (hf : f.Takes operands) (hg : g.Takes operands)
    {size : DataSize} {tail : EncodedAddress}
    (h : operandBytes (f.assign operands) size mode = .ok tail) :
    ∃ tail', operandBytes (g.assign operands) size mode = .ok tail' ∧
      tail'.displacement = tail.displacement ∧
      tail'.bytes.length + f.usesModRM.toNat = tail.bytes.length + g.usesModRM.toNat := by
  by_cases hmemory : ∃ m, .memory m ∈ operands
  · obtain ⟨m, hm⟩ := hmemory
    obtain ⟨hrm, hmodrm⟩ := hf.assign_rm_of_memory hm
    obtain ⟨hrm', hmodrm'⟩ := hg.assign_rm_of_memory hm
    simp only [operandBytes, hrm, hrm'] at h ⊢
    obtain ⟨tail', htail', hlength, hdisplacement⟩ :=
      encode_of_reg h ((g.assign operands).reg.getD 0)
    exact ⟨tail', htail', hdisplacement, by rw [hlength, hmodrm, hmodrm']⟩
  · have hnone (m : Address) : .memory m ∉ operands := fun hm => hmemory ⟨m, hm⟩
    obtain ⟨tail₁, htail₁, hlength, hdisplacement⟩ := hf.operandBytes_of_no_memory hnone size mode
    obtain ⟨tail', htail', hlength', hdisplacement'⟩ := hg.operandBytes_of_no_memory hnone size mode
    cases h.symm.trans htail₁
    exact ⟨tail', htail', hdisplacement'.trans hdisplacement.symm, by omega⟩

/-- Two forms that take the same operands, and ask for REX.W alike, have an encoding both or
neither, and the lengths differ as those of the forms. -/
theorem encode_of_encode (hf : f.Takes operands) (hg : g.Takes operands)
    (hfmem : f ∈ OpcodeTable.forms) (hgmem : g ∈ OpcodeTable.forms) (hwide : f.wideRex = g.wideRex)
    {mnemonic : String} {bytes : List UInt8} {fields : List Field}
    (h : f.encode mnemonic operands mode = .ok (bytes, fields)) :
    ∃ bytes' fields', g.encode mnemonic operands mode = .ok (bytes', fields') ∧
      bytes'.length + Encoded.fieldsLength fields' + f.length mode =
        bytes.length + Encoded.fieldsLength fields + g.length mode := by
  obtain ⟨segment, size, address, tail, rex, hsegment, hsize, haddress, htail, hrex, rfl, rfl⟩ :=
    encode_eq_ok.1 h
  obtain ⟨tail', htail', hdisplacement, hlength⟩ := hf.operandBytes_of_operandBytes hg htail
  have hneeds := hf.rex_eq_empty_iff hfmem htail
  rw [hwide, ← hg.rex_eq_empty_iff hgmem htail'] at hneeds
  obtain ⟨rex', hrex', hrexLength⟩ := rexBytes_of_iff hrex hneeds
  refine ⟨_, _, encode_eq_ok.2 ⟨segment, size, address, tail', rex', hsegment, hsize, haddress,
    htail', hrex', rfl, rfl⟩, ?_⟩
  simp only [List.length_append, Encoded.fieldsLength_append, hf.length_opcode, hg.length_opcode,
    hf.fieldsLength_operandFields, hg.fieldsLength_operandFields, hdisplacement, hrexLength,
    Form.length]
  omega

end Takes

end Form

/-! ## Instructions -/

namespace Instruction

open Form OpcodeTable

variable {i : Instruction} {mode : Mode} {known : KnownValues} {f g : Form}

/-- A form of the mnemonic that could have been chosen is no shorter than the chosen one. -/
theorem isNoLonger_of_select (hselect : i.select mode known = .ok f)
    (hknown : ∀ k imm, i.operands[k]? = some (.immediate imm) → imm.size = none →
      (known.valueAt k).isSome)
    (hbranch : ∀ b, .branch b ∉ i.operands) (hg : g ∈ formsOf i.mnemonic)
    (haccepts : g.accepts i.operands known mode) (hvalid : g.isValidIn i.operands mode) :
    f.IsNoLonger g := by
  obtain ⟨hf, before, after, hforms, hbefore⟩ :=
    List.find?_eq_some_iff_append.1 (select_eq_ok_iff.1 hselect)
  simp only [Bool.decide_and, Bool.decide_eq_true, Bool.and_eq_true] at hf
  obtain ⟨op, hop, hnames, -⟩ := mem_formsOf.1 hg
  have hop' := formsOf_of_mem hop hnames
  have hpairwise := pairwise_forms op hop
  rw [← hop', hforms, List.pairwise_append, List.pairwise_cons] at hpairwise
  -- a form without a twin stands behind the chosen one, which it overlaps
  have halone {g : Form} (hg : g ∈ formsOf i.mnemonic) (haccepts : g.accepts i.operands known mode)
      (hvalid : g.isValidIn i.operands mode)
      (hno : ¬ (g.needsKnown = false ∧ g.known ∈ formsOf i.mnemonic)) : f.IsNoLonger g := by
    rw [hforms] at hg hno
    rcases List.mem_append.1 hg with hg | hg
    · simpa [haccepts, hvalid] using hbefore g hg
    rcases List.mem_cons.1 hg with rfl | hg
    · exact ⟨rfl, fun _ _ _ _ => Nat.le_refl _⟩
    · have hoverlaps := overlaps_of_accepts hf.1 haccepts hbranch
      exact (hpairwise.2.1.1 g hg hoverlaps).resolve_right hno
  by_cases htwin : g.needsKnown = false ∧ g.known ∈ formsOf i.mnemonic
  · -- what is said of the twin holds of the form, which differs in nothing else
    have hlength := halone htwin.2 (accepts_known haccepts hknown) hvalid (by simp [Form.known])
    exact hlength
  · exact halone hg haccepts hvalid htwin

/-- Where the values of immediates are known and no operand is a branch target, no form of the
mnemonic has a shorter encoding than the first one that is usable, and each has an encoding if that
one has. -/
theorem select_isShortest (hselect : i.select mode known = .ok f)
    (hknown : ∀ k imm, i.operands[k]? = some (.immediate imm) → imm.size = none →
      (known.valueAt k).isSome)
    (hbranch : ∀ b, .branch b ∉ i.operands) {bytes : List UInt8} {fields : List Field}
    (hencode : f.encode i.mnemonic i.operands mode = .ok (bytes, fields))
    (hg : g ∈ formsOf i.mnemonic) (haccepts : g.accepts i.operands known mode)
    (hvalid : g.isValidIn i.operands mode) :
    ∃ bytes' fields', g.encode i.mnemonic i.operands mode = .ok (bytes', fields') ∧
      bytes.length + Encoded.fieldsLength fields ≤
        bytes'.length + Encoded.fieldsLength fields' := by
  obtain ⟨hwide, hlength⟩ := isNoLonger_of_select hselect hknown hbranch hg haccepts hvalid
  obtain ⟨hftakes, hfvalid⟩ := takes_of_select hselect
  obtain ⟨op, hop, -, hgop⟩ := mem_formsOf.1 hg
  have hgtakes := takes_of_accepts hop hgop haccepts
  obtain ⟨bytes', fields', hencode', hlengths⟩ := hftakes.encode_of_encode hgtakes
    (mem_forms_of_select hselect) (List.mem_flatMap.2 ⟨op, hop, hgop⟩) hwide hencode
  have hle : f.length mode ≤ g.length mode :=
    hlength mode (by cases mode <;> decide) (contains_of_isValidIn hfvalid)
      (contains_of_isValidIn hvalid)
  exact ⟨bytes', fields', hencode', by omega⟩

/-- `mov rax, 5`, which has an encoding in 7 bytes and one in 10. -/
def loadNumber : Instruction where
  mnemonic := "mov"
  operands := [.register .rax, .immediate ⟨.constant 5, none⟩]

/-- The number is loaded with the shorter encoding. -/
theorem select_isShortest_loadNumber :
    ∃ bytes' fields', (of [0xB8] [.opreg .bit64, .imm .bit64]).op64.long.encode loadNumber.mnemonic
        loadNumber.operands .bit64 = .ok (bytes', fields') ∧
      7 ≤ bytes'.length + Encoded.fieldsLength fields' := by
  have hselect : loadNumber.select .bit64 [none, some 5] =
      .ok ((of [0xC7] [.rm .bit64, .imm .bit32]).op64.sext.known.long.slash 0) :=
    eq_ok_of_toOption (by decide +kernel)
  have hknown (k : Nat) (imm : Immediate) (hk : loadNumber.operands[k]? = some (.immediate imm))
      (_ : imm.size = none) : (KnownValues.valueAt [none, some 5] k).isSome := by
    match k, hk with
    | 1, _ => rfl
  have hbranch (b : BranchTarget) : .branch b ∉ loadNumber.operands := by simp [loadNumber]
  have hlength : (((of [0xC7] [.rm .bit64, .imm .bit32]).op64.sext.known.long.slash 0).encode
      loadNumber.mnemonic loadNumber.operands .bit64).toOption.map
        (fun encoded => encoded.1.length + Encoded.fieldsLength encoded.2) = some 7 := by
    decide +kernel
  obtain ⟨⟨bytes, fields⟩, hencode, hlength⟩ := Option.map_eq_some_iff.1 hlength
  have hshortest := select_isShortest hselect hknown hbranch (eq_ok_of_toOption hencode)
    (g := (of [0xB8] [.opreg .bit64, .imm .bit64]).op64.long) (by decide +kernel)
    (by decide +kernel) (by decide +kernel)
  rwa [hlength] at hshortest

end Instruction

end Assembler
