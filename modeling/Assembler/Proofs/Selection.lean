import Assembler.Proofs.Placement

/-!
# Which form is selected

`Instruction.select` goes by `Form.isValidIn`. Here is what it is meant to answer: the first form of
the mnemonic that is usable (`Form.IsUsable`), or one of three causes why there is none. `Selects`
states the four answers.

Main statement: `Instruction.selects_iff`. The answer is the right one for every instruction but
`nop` in 64-bit mode. The rule that keeps opcode 90 from exchanging `eax` with itself asks whether
all operands are `eax`, and all of no operands are.
-/

namespace Assembler

/-- Size of the address that an operand refers to, if it has one. -/
def Operand.addressSize? (mode : Mode) : Operand → Option DataSize
  | .memory a => (a.effectiveSize mode).toOption
  | .offset m => some (m.effectiveSize mode)
  | _ => none

namespace Form

variable {f : Form} {operands : List Operand} {known : KnownValues} {mode : Mode}

/-- What a mode has no bytes for. -/
inductive Unrepresentable (f : Form) (operands : List Operand) (mode : Mode) : Prop
  | wideOperation (hmode : mode ≠ .bit64) (h : f.operandSize = .bit64)
  | rexRegister {r : Register} (hmode : mode ≠ .bit64) (hr : .register r ∈ operands)
    (h : r.requiresRex)
  | wideRegister {r : Register} (hmode : mode ≠ .bit64) (hr : .register r ∈ operands)
    (h : r.isGeneral ∧ r.size = .bit64)
  | ripRelative {a : Address} (hmode : mode ≠ .bit64) (ha : .memory a ∈ operands)
    (h : a.ripRelative)
  | extendedAddress {a : Address} (hmode : mode ≠ .bit64) (ha : .memory a ∈ operands)
    (h : a.usesExtended)
  | wideAddress {op : Operand} (hmode : mode ≠ .bit64) (hop : op ∈ operands)
    (h : op.addressSize? mode = some .bit64)
  | narrowAddress {op : Operand} (hmode : mode = .bit64) (hop : op ∈ operands)
    (h : op.addressSize? mode = some .bit16)
  /-- Opcode 90 leaves the upper half of `rax` as it is. -/
  | exchangeEax (hmode : mode = .bit64) (hopcode : f.opcode = [0x90])
    (hoperands : operands = [.register .eax, .register .eax])

/-- A form has the shape of the operands and exists in the mode with them. -/
structure IsUsable (f : Form) (operands : List Operand) (known : KnownValues) (mode : Mode) :
    Prop where
  accepts : f.accepts operands known mode
  exists_in : f.modes.contains mode
  representable : ¬ f.Unrepresentable operands mode

theorem hasSize_iff {a : Address} {size : DataSize} :
    hasSize a mode size ↔ (Operand.memory a).addressSize? mode = some size := by
  simp only [hasSize, Operand.addressSize?]
  cases a.effectiveSize mode <;> simp [Except.toOption]

theorem isLongOperand_iff {op : Operand} :
    isLongOperand op ↔ op.addressSize? .bit64 ≠ some .bit16 := by
  cases op with
  | memory a => simp [isLongOperand, ← hasSize_iff]
  | _ => simp [isLongOperand, Operand.addressSize?]

/-- The rules on operands of a mode other than 64-bit mode, each read off an operand. -/
theorem isLegacyOperand_iff {op : Operand} :
    isLegacyOperand mode op ↔
      (∀ r, op = .register r → ¬ r.requiresRex ∧ ¬ (r.isGeneral ∧ r.size = .bit64)) ∧
      (∀ a, op = .memory a → ¬ a.ripRelative ∧ ¬ a.usesExtended) ∧
      op.addressSize? mode ≠ some .bit64 := by
  cases op with
  | register r => simp [isLegacyOperand, Operand.addressSize?, Classical.or_iff_not_imp_left]
  | memory a => simp [isLegacyOperand, ← hasSize_iff, and_assoc]
  | _ => simp [isLegacyOperand, Operand.addressSize?]

/-- Outside 64-bit mode a form is valid where it is listed, unless something has no bytes there. -/
theorem isValidIn_iff_of_ne (hmode : mode ≠ .bit64) :
    f.isValidIn operands mode ↔ f.modes.contains mode ∧ ¬ f.Unrepresentable operands mode := by
  have hvalid : f.isValidIn operands mode ↔ f.modes.contains mode ∧ f.operandSize ≠ .bit64 ∧
      ∀ op ∈ operands, isLegacyOperand mode op := by
    cases mode with
    | bit64 => exact absurd rfl hmode
    | bit16 | bit32 => simp [isValidIn]
  rw [hvalid]
  refine and_congr_right fun _ => ⟨?_, fun h => ⟨fun hsize => h (.wideOperation hmode hsize), ?_⟩⟩
  · rintro ⟨hsize, hall⟩ (⟨-, h⟩ | ⟨-, hr, h⟩ | ⟨-, hr, h⟩ | ⟨-, ha, h⟩ | ⟨-, ha, h⟩ |
      ⟨-, hop, h⟩ | ⟨h, -, -⟩ | ⟨h, -, -⟩)
    · exact hsize h
    · exact ((isLegacyOperand_iff.1 (hall _ hr)).1 _ rfl).1 h
    · exact ((isLegacyOperand_iff.1 (hall _ hr)).1 _ rfl).2 h
    · exact ((isLegacyOperand_iff.1 (hall _ ha)).2.1 _ rfl).1 h
    · exact ((isLegacyOperand_iff.1 (hall _ ha)).2.1 _ rfl).2 h
    · exact (isLegacyOperand_iff.1 (hall _ hop)).2.2 h
    · exact hmode h
    · exact hmode h
  · intro op hop
    refine isLegacyOperand_iff.2 ⟨?_, ?_, fun hsize => h (.wideAddress hmode hop hsize)⟩
    · rintro r rfl
      exact ⟨fun hr => h (.rexRegister hmode hop hr), fun hr => h (.wideRegister hmode hop hr)⟩
    · rintro a rfl
      exact ⟨fun ha => h (.ripRelative hmode hop ha), fun ha => h (.extendedAddress hmode hop ha)⟩

theorem isEax_iff {op : Operand} : isEax op ↔ op = .register .eax := by
  cases op <;> simp [isEax]

/-- In 64-bit mode there are no bytes for 16-bit addressing, and none for `xchg eax, eax` in one
byte. -/
theorem unrepresentable_long_iff :
    f.Unrepresentable operands .bit64 ↔
      (∃ op ∈ operands, op.addressSize? .bit64 = some .bit16) ∨
        (f.opcode = [0x90] ∧ operands = [.register .eax, .register .eax]) := by
  constructor
  · intro h
    cases h with
    | narrowAddress _ hop h => exact .inl ⟨_, hop, h⟩
    | exchangeEax _ hopcode hoperands => exact .inr ⟨hopcode, hoperands⟩
    | _ => contradiction
  · rintro (⟨op, hop, h⟩ | ⟨hopcode, hoperands⟩)
    · exact .narrowAddress rfl hop h
    · exact .exchangeEax rfl hopcode hoperands

/-- Opcode 90 with `eax` in every place, for a form of no operands or of two. -/
theorem isNopOfEax_iff (hcount : f.opcode = [0x90] → operands.length = 0 ∨ operands.length = 2) :
    f.isNopOfEax operands ↔ f.opcode = [0x90] ∧
      (operands = [.register .eax, .register .eax] ∨ operands = []) := by
  simp only [isNopOfEax, Bool.and_eq_true, decide_eq_true_eq, List.all_eq_true, isEax_iff]
  refine and_congr_right fun hopcode => ?_
  rcases hcount hopcode with hlength | hlength
  · simp [List.length_eq_zero_iff.1 hlength]
  · rcases operands with _ | ⟨op, _ | ⟨op', _ | ⟨op'', rest⟩⟩⟩ <;> simp at hlength ⊢

/-- The rule of 64-bit mode on opcode 90 applies without operands, too. -/
theorem isValidIn_long_iff
    (hcount : f.opcode = [0x90] → operands.length = 0 ∨ operands.length = 2) :
    f.isValidIn operands .bit64 ↔
      (f.modes.contains .bit64 ∧ ¬ f.Unrepresentable operands .bit64) ∧
        ¬ (f.opcode = [0x90] ∧ operands = []) := by
  have hvalid : f.isValidIn operands .bit64 ↔ f.modes.contains .bit64 ∧ ¬ f.isNopOfEax operands ∧
      ∀ op ∈ operands, op.addressSize? .bit64 ≠ some .bit16 := by
    simp [isValidIn, isLongOperand_iff]
  rw [hvalid, isNopOfEax_iff hcount, unrepresentable_long_iff]
  grind

end Form

namespace OpcodeTable

/-- An opcode is named by a mnemonic, in any case. -/
def Names (mnemonic : String) (op : Opcode) : Prop := op.mnemonic.toLower = mnemonic.toLower

instance (mnemonic : String) : DecidablePred (Names mnemonic) := fun _ =>
  inferInstanceAs (Decidable (_ = _))

/-- The forms of a mnemonic in the order of the table. -/
def formsOf (mnemonic : String) : List Form :=
  (opcodes.filter fun op => Names mnemonic op).flatMap Opcode.forms

/-- A mnemonic as a number, the same in any case. -/
def key (mnemonic : String) : Nat :=
  mnemonic.toList.foldl (fun n c => n * 256 + c.toLower.toNat) 0

theorem key_eq_of_toLower_eq {s t : String} (h : s.toLower = t.toLower) : key s = key t := by
  have hchars : s.toList.map Char.toLower = t.toList.map Char.toLower := by
    rw [← String.toList_map, ← String.toList_map]
    exact congrArg String.toList h
  have hkey (s : String) :
      key s = (s.toList.map Char.toLower).foldl (fun n c => n * 256 + c.toNat) 0 := by
    rw [List.foldl_map, key]
  rw [hkey, hkey, hchars]

/-- No mnemonic occurs twice. -/
theorem nodup_keys : (opcodes.map fun op => key op.mnemonic).Nodup := by
  decide +kernel

/-- Opcode 90 takes two operands, but for `nop`. -/
theorem slots_of_nop : ∀ op ∈ opcodes, ∀ f ∈ op.forms, f.opcode = [0x90] →
    f.slots.length = 0 ∧ op.mnemonic.toLower = "nop" ∨ f.slots.length = 2 := by
  decide +kernel

/-- What takes no operands is 64 bits wide in 64-bit mode only. -/
theorem operandSize_of_slots_eq_nil : ∀ op ∈ opcodes, ∀ f ∈ op.forms, f.slots = [] →
    ∀ mode ≠ Mode.bit64, f.modes.contains mode → f.operandSize ≠ .bit64 := by
  have htable : ∀ op ∈ opcodes, ∀ f ∈ op.forms, f.slots = [] →
      ∀ mode ∈ [Mode.bit16, .bit32], f.modes.contains mode → f.operandSize ≠ .bit64 := by
    decide +kernel
  intro op hop f hf hslots mode hmode
  refine htable op hop f hf hslots mode ?_
  cases mode <;> simp at hmode ⊢

variable {mnemonic : String} {op : Opcode} {f : Form}

theorem find?_eq : find? mnemonic = opcodes.find? fun op => Names mnemonic op := by
  unfold find?
  congr 1

theorem find?_eq_none_iff_forall : find? mnemonic = none ↔ ∀ op ∈ opcodes, ¬ Names mnemonic op := by
  rw [find?_eq]
  simp

/-- The forms of a mnemonic are those of the opcode that it names. -/
theorem formsOf_of_mem (hop : op ∈ opcodes) (hnames : Names mnemonic op) :
    formsOf mnemonic = op.forms := by
  obtain ⟨before, after, hsplit⟩ := List.append_of_mem hop
  have hnodup := nodup_keys
  rw [hsplit, List.map_append, List.map_cons, List.nodup_append, List.nodup_cons] at hnodup
  have hkey {other : Opcode} (h : decide (Names mnemonic other) = true) :
      key other.mnemonic = key op.mnemonic :=
    key_eq_of_toLower_eq ((of_decide_eq_true h).trans hnames.symm)
  have hbefore : before.filter (fun op => Names mnemonic op) = [] := by
    rw [List.filter_eq_nil_iff]
    intro other hother h
    exact hnodup.2.2 _ (List.mem_map_of_mem hother) _ List.mem_cons_self (hkey h)
  have hafter : after.filter (fun op => Names mnemonic op) = [] := by
    rw [List.filter_eq_nil_iff]
    intro other hother h
    exact hnodup.2.1.1 (List.mem_map.2 ⟨other, hother, hkey h⟩)
  rw [formsOf, hsplit, List.filter_append, List.filter_cons, if_pos (decide_eq_true hnames),
    hbefore, hafter]
  simp

theorem formsOf_of_find? (h : find? mnemonic = some op) : formsOf mnemonic = op.forms := by
  rw [find?_eq] at h
  have hnames := List.find?_some h
  exact formsOf_of_mem (List.mem_of_find?_eq_some h) (of_decide_eq_true hnames)

theorem formsOf_nop (h : mnemonic.toLower = "nop") : formsOf mnemonic = [Form.of [0x90] []] := by
  have hnames : Names mnemonic ⟨"nop", [Form.of [0x90] []]⟩ := by
    rw [Names, h]
    decide +kernel
  have hmem : ⟨"nop", [Form.of [0x90] []]⟩ ∈ opcodes := by decide +kernel
  exact formsOf_of_mem hmem hnames

theorem formsOf_of_unknown (h : ∀ op ∈ opcodes, ¬ Names mnemonic op) : formsOf mnemonic = [] := by
  have hnone : opcodes.filter (fun op => Names mnemonic op) = [] := by
    simpa [List.filter_eq_nil_iff] using h
  rw [formsOf, hnone]
  rfl

theorem mem_formsOf : f ∈ formsOf mnemonic ↔ ∃ op ∈ opcodes, Names mnemonic op ∧ f ∈ op.forms := by
  simp [formsOf, and_assoc]

/-- A form without operands is usable in the modes that it lists. -/
theorem isUsable_of_slots_eq_nil {known : KnownValues} {mode : Mode} (hf : f ∈ formsOf mnemonic)
    (hslots : f.slots = []) (hmode : f.modes.contains mode) : f.IsUsable [] known mode := by
  refine ⟨by simp [Form.accepts, Form.pair, Form.honoursDefaultSize, hslots], hmode, ?_⟩
  obtain ⟨op, hop, -, hf⟩ := mem_formsOf.1 hf
  intro h
  cases h with
  | wideOperation hlegacy hsize =>
    exact operandSize_of_slots_eq_nil op hop f hf hslots mode hlegacy hmode hsize
  | _ => contradiction

end OpcodeTable

open OpcodeTable

namespace Instruction

/-- The answers of a selection. -/
structure Selects (i : Instruction) (mode : Mode) (known : KnownValues)
    (result : Except EncodeError Form) : Prop where
  /-- The first usable form, in the order of the table. -/
  first : ∀ f, result = .ok f ↔ f.IsUsable i.operands known mode ∧
    ∃ before after, formsOf i.mnemonic = before ++ f :: after ∧
      ∀ g ∈ before, ¬ g.IsUsable i.operands known mode
  /-- Nothing but the mode keeps an instruction without operands from being selected. -/
  operandFree : i.operands = [] → ∀ f ∈ formsOf i.mnemonic, f.slots = [] → f.modes.contains mode →
    ∃ g, result = .ok g
  unsupported : result = .error (.unsupportedInMode i.mnemonic mode) ↔
    (∃ f ∈ formsOf i.mnemonic, f.accepts i.operands known mode) ∧
      ∀ f ∈ formsOf i.mnemonic, ¬ f.IsUsable i.operands known mode
  noMatch : result = .error (.noMatchingForm i.mnemonic i.operandsText) ↔
    (∃ op ∈ opcodes, Names i.mnemonic op) ∧
      ∀ f ∈ formsOf i.mnemonic, ¬ f.accepts i.operands known mode
  unknown : result = .error (.unknownMnemonic i.mnemonic) ↔ ∀ op ∈ opcodes, ¬ Names i.mnemonic op

variable {i : Instruction} {mode : Mode} {known : KnownValues}

theorem select_of_unknown (h : ∀ op ∈ opcodes, ¬ Names i.mnemonic op) :
    i.select mode known = .error (.unknownMnemonic i.mnemonic) := by
  unfold select
  rw [find?_eq_none_iff_forall.2 h]

/-- Selection in one search over the forms of the mnemonic. -/
theorem select_of_known (h : ∃ op ∈ opcodes, Names i.mnemonic op) :
    i.select mode known =
      match (formsOf i.mnemonic).find? fun f =>
        f.accepts i.operands known mode ∧ f.isValidIn i.operands mode with
      | some f => .ok f
      | none =>
        if (formsOf i.mnemonic).any fun f => f.accepts i.operands known mode then
          .error (.unsupportedInMode i.mnemonic mode)
        else .error (.noMatchingForm i.mnemonic i.operandsText) := by
  cases hfind : find? i.mnemonic with
  | none =>
    obtain ⟨op, hop, hnames⟩ := h
    exact absurd hnames (find?_eq_none_iff_forall.1 hfind op hop)
  | some op =>
    unfold select
    rw [formsOf_of_find? hfind, hfind]
    dsimp only
    rw [List.find?_filter]
    have hempty : (op.forms.filter fun f => f.accepts i.operands known mode).isEmpty =
        !op.forms.any fun f => f.accepts i.operands known mode := by
      rw [Bool.eq_iff_iff]
      simp
    rw [hempty]
    cases op.forms.any fun f => f.accepts i.operands known mode <;> rfl

theorem select_eq_ok_iff {f : Form} :
    i.select mode known = .ok f ↔ ((formsOf i.mnemonic).find? fun f =>
      f.accepts i.operands known mode ∧ f.isValidIn i.operands mode) = some f := by
  by_cases hknown : ∃ op ∈ opcodes, Names i.mnemonic op
  · rw [select_of_known hknown]
    split <;> grind
  · rw [select_of_unknown (by grind), formsOf_of_unknown (by grind)]
    simp

theorem select_eq_unknown_iff :
    i.select mode known = .error (.unknownMnemonic i.mnemonic) ↔
      ∀ op ∈ opcodes, ¬ Names i.mnemonic op := by
  refine ⟨fun h => ?_, select_of_unknown⟩
  by_cases hknown : ∃ op ∈ opcodes, Names i.mnemonic op
  · rw [select_of_known hknown] at h
    grind
  · grind

/-- A mnemonic is unsupported in a mode if some form accepts the operands and none of those is
valid. -/
theorem select_eq_unsupported_iff :
    i.select mode known = .error (.unsupportedInMode i.mnemonic mode) ↔
      (∃ f ∈ formsOf i.mnemonic, f.accepts i.operands known mode) ∧
        ∀ f ∈ formsOf i.mnemonic,
          ¬ (f.accepts i.operands known mode ∧ f.isValidIn i.operands mode) := by
  by_cases hknown : ∃ op ∈ opcodes, Names i.mnemonic op
  · rw [select_of_known hknown]
    split
    next f hf => grind
    next hnone =>
      simp only [List.find?_eq_none, decide_eq_true_eq] at hnone
      grind
  · rw [select_of_unknown (by grind), formsOf_of_unknown (by grind)]
    simp

theorem select_eq_noMatch_iff :
    i.select mode known = .error (.noMatchingForm i.mnemonic i.operandsText) ↔
      (∃ op ∈ opcodes, Names i.mnemonic op) ∧
        ∀ f ∈ formsOf i.mnemonic, ¬ f.accepts i.operands known mode := by
  by_cases hknown : ∃ op ∈ opcodes, Names i.mnemonic op
  · rw [select_of_known hknown]
    split
    next f hf => grind
    next hnone => grind
  · rw [select_of_unknown (by grind)]
    simp [hknown]

/-- Where the check of a form agrees with what is asked of it, so does the selection. -/
theorem selects_of_isValidIn_iff (h : ∀ f ∈ formsOf i.mnemonic, f.accepts i.operands known mode →
      (f.isValidIn i.operands mode ↔
        f.modes.contains mode ∧ ¬ f.Unrepresentable i.operands mode)) :
    i.Selects mode known (i.select mode known) := by
  have husable : ∀ f ∈ formsOf i.mnemonic,
      (f.accepts i.operands known mode ∧ f.isValidIn i.operands mode ↔
        f.IsUsable i.operands known mode) := by
    intro f hf
    constructor
    · rintro ⟨haccepts, hvalid⟩
      obtain ⟨hmode, hrep⟩ := (h f hf haccepts).1 hvalid
      exact ⟨haccepts, hmode, hrep⟩
    · rintro ⟨haccepts, hmode, hrep⟩
      exact ⟨haccepts, (h f hf haccepts).2 ⟨hmode, hrep⟩⟩
  refine ⟨fun f => ?_, ?_, ?_, select_eq_noMatch_iff, select_eq_unknown_iff⟩
  · rw [select_eq_ok_iff, List.find?_eq_some_iff_append]
    grind
  · intro hoperands f hf hslots hmode
    cases hfind : (formsOf i.mnemonic).find? fun f =>
        f.accepts i.operands known mode ∧ f.isValidIn i.operands mode with
    | some g => exact ⟨g, select_eq_ok_iff.2 hfind⟩
    | none =>
      have hunusable := List.find?_eq_none.1 hfind f hf
      rw [decide_eq_true_eq, husable f hf, hoperands] at hunusable
      exact absurd (isUsable_of_slots_eq_nil hf hslots hmode) hunusable
  · rw [select_eq_unsupported_iff]
    grind

/-- In 64-bit mode `nop` is refused: all of its operands are `eax`. -/
theorem select_nop (hoperands : i.operands = []) (hnop : i.mnemonic.toLower = "nop") :
    i.select .bit64 known = .error (.unsupportedInMode i.mnemonic .bit64) := by
  rw [select_eq_unsupported_iff, formsOf_nop hnop, hoperands]
  refine ⟨⟨_, List.mem_singleton_self _, rfl⟩, ?_⟩
  rintro f hf ⟨-, hvalid⟩
  rw [List.mem_singleton.1 hf] at hvalid
  cases hvalid

/-- Selection gives the answer that it should, but for `nop` in 64-bit mode. -/
theorem selects_iff (i : Instruction) (mode : Mode) (known : KnownValues) :
    i.Selects mode known (i.select mode known) ↔
      ¬ (mode = .bit64 ∧ i.operands = [] ∧ i.mnemonic.toLower = "nop") := by
  constructor
  · rintro h ⟨rfl, hoperands, hnop⟩
    have hmem : Form.of [0x90] [] ∈ formsOf i.mnemonic := by simp [formsOf_nop hnop]
    obtain ⟨g, hg⟩ := h.operandFree hoperands _ hmem rfl rfl
    rw [select_nop hoperands hnop] at hg
    cases hg
  · intro h
    apply selects_of_isValidIn_iff
    intro f hf haccepts
    by_cases hmode : mode = .bit64
    · subst hmode
      obtain ⟨op, hop, hnames, hf⟩ := mem_formsOf.1 hf
      have hlength := Form.length_eq_of_accepts haccepts
      have hslots := slots_of_nop op hop f hf
      rw [Form.isValidIn_long_iff (by grind)]
      refine and_iff_left ?_
      rintro ⟨hopcode, hoperands⟩
      -- without operands opcode 90 is `nop`
      refine h ⟨rfl, hoperands, ?_⟩
      rw [hoperands] at hlength
      grind [Names]
    · exact Form.isValidIn_iff_of_ne hmode

/-- `nop` is refused in 64-bit mode, where its form is usable. -/
theorem select_nop_of_isUsable :
    Form.of [0x90] [] ∈ formsOf "nop" ∧ (Form.of [0x90] []).IsUsable [] [] .bit64 ∧
      Instruction.select ⟨"nop", []⟩ .bit64 [] = .error (.unsupportedInMode "nop" .bit64) := by
  have hnop : ("nop" : String).toLower = "nop" := by decide +kernel
  have hmem : Form.of [0x90] [] ∈ formsOf "nop" := by simp [formsOf_nop hnop]
  exact ⟨hmem, isUsable_of_slots_eq_nil hmem rfl rfl, select_nop rfl hnop⟩

end Instruction

end Assembler
