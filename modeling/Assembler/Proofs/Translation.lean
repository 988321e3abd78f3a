import Assembler.Proofs.Expressions
import Assembler.Proofs.Movement
import Mathlib.Algebra.Group.Int.Defs

/-!
# Programs at another address

A program whose first section has an address and whose other sections follow it can be put anywhere.
Laid out `d` bytes further on it has the same items, in sections that are `d` further on, provided
that `d` keeps every alignment: an item depends on numbers, which stay, and padding depends on the
cursor, of which only the remainder by the boundary counts.

Every step from a translated context is the translated step, whether it succeeds or fails:
`Statement.place_translated` for one leaf, `constructAll_translated` for a walk over leaves,
`constructSections_translated` for sections. Main statement: `ObjectFile.construct_translation`.
-/

namespace Assembler

/-- Every section moves by `d`, and imports stay. -/
def Movement.translation (d : Word) : Movement := ⟨fun _ => d, fun _ => 0⟩

/-! ## Alignment -/

namespace Word

/-- A power of two divides the size of a word, so that a sum has its remainder also where it
wraps. -/
theorem toInt_add_emod {boundary : UInt64} (hpow : isPowerOfTwoNat boundary.toNat) (w d : Word) :
    (w + d).toInt % (boundary.toNat : Int) = (w.toInt + d.toInt) % (boundary.toNat : Int) := by
  simp only [isPowerOfTwoNat, ne_eq, decide_not, Bool.and_eq_true, Bool.not_eq_eq_eq_not,
    Bool.not_true, decide_eq_false_iff_not, decide_eq_true_eq] at hpow
  obtain ⟨k, hk⟩ := (Nat.and_sub_one_eq_zero_iff_isPowerOfTwo hpow.1).1 hpow.2
  have hlt : k < 64 := by
    have := boundary.toNat_lt
    rw [hk] at this
    exact (Nat.pow_lt_pow_iff_right (by decide)).1 this
  have hwraps : (boundary.toNat : Int) ∣ ((2 ^ 128 : Nat) : Int) := by
    rw [hk, Int.natCast_dvd_natCast]
    exact Nat.pow_dvd_pow 2 (by omega)
  rw [BitVec.toInt_add, ← Int.emod_emod_of_dvd _ hwraps, Int.bmod_emod,
    Int.emod_emod_of_dvd _ hwraps]

/-- Only the remainder of an address by the boundary counts for padding, also where it wraps. -/
theorem padding_add {boundary : UInt64} (hpow : isPowerOfTwoNat boundary.toNat) {d : Word}
    (hd : (boundary.toNat : Int) ∣ d.toInt) (w : Word) :
    (w + d).padding boundary = w.padding boundary := by
  have hmod : (w + d).toInt % (boundary.toNat : Int) = w.toInt % (boundary.toNat : Int) := by
    rw [toInt_add_emod hpow, Int.add_emod, Int.emod_eq_zero_of_dvd hd, Int.add_zero,
      Int.emod_emod]
  simp only [padding, hmod]

theorem align_add {boundary : UInt64} (hpow : isPowerOfTwoNat boundary.toNat) {d : Word}
    (hd : (boundary.toNat : Int) ∣ d.toInt) (w : Word) :
    (w + d).align boundary = w.align boundary + d := by
  rw [align, padding_add hpow hd, align, add_right_comm]

end Word

/-! ## Tables -/

/-- The symbol of a program that was put `d` bytes further on: an address in a section moves, a
number or an import stays. -/
def Symbol.translate (d : Word) (s : Symbol) : Symbol :=
  if s.home.isSome && !s.isAbsolute then { s with value := s.value + d } else s

theorem Symbol.moved_translation (d : Word) (s : Symbol) :
    s.moved (.translation d) = s.translate d := by
  obtain ⟨identifier, kind, home, file, isAbsolute, value, size⟩ := s
  cases isAbsolute <;> cases home <;> simp [moved, shift, translate, Movement.translation]

/-- The outcome of a step that was taken `d` bytes further on. -/
def Construct.translated {ε α : Type} (d : Word) (f : α → α) :
    EStateM.Result ε Context α → EStateM.Result ε Context α
  | .ok a ctx => .ok (f a) (ctx.moved (.translation d))
  | .error e ctx => .error e (ctx.moved (.translation d))

theorem SymbolTable.insert_moved (t : SymbolTable) (m : Movement) (s : Symbol) :
    (t.moved m).insert (s.moved m) = ((t.insert s).1, (t.insert s).2.moved m) := by
  unfold insert
  have hid : (t.moved m).idOf? (s.moved m).identifier = t.idOf? s.identifier := idOf?_moved t m _
  rw [hid]
  cases t.idOf? s.identifier with
  | none => simp [moved]
  | some id => simp [moved, List.map_set]

namespace Context

variable {ctx : Context} {d : Word}

theorem withSymbol_moved (m : Movement) (s : Symbol) :
    (ctx.moved m).withSymbol (s.moved m) = (ctx.withSymbol s).moved m := by
  unfold withSymbol moved
  rw [SymbolTable.insert_moved]

theorem checkNew_moved (m : Movement) (identifier : String) :
    (ctx.moved m).checkNew identifier = ctx.checkNew identifier := by
  unfold checkNew moved
  simp

theorem HasStart.of_extends {after : Context} (h : ctx.HasStart) (hext : ctx.Extends after) :
    after.HasStart := by
  intro k hk
  obtain ⟨s, hs, hmoves, hhome⟩ := h k (by rw [← hext.current, hk])
  exact ⟨s, hext.find? hs, hmoves, hhome⟩

theorem hasStart_openSection (id : SectionId) (base : Word) :
    (ctx.openSection id base).2.HasStart := by
  rintro k ⟨⟩
  exact ⟨_, SymbolTable.find?_insert_self _ _, rfl, rfl⟩

theorem openSection_translated (id : SectionId) (base : Word) :
    ((ctx.moved (.translation d)).openSection id (base + d)).2 =
      (ctx.openSection id base).2.moved (.translation d) := by
  have hsymbol := (ctx.enterSection id base).withSymbol_moved (.translation d)
    { Symbol.declare (startName id) .internal with
      value := base, home := some id, file := ctx.file }
  exact hsymbol

/-- The cursor moves by `d` in a section, and not at all outside. -/
theorem address_translated :
    (ctx.moved (.translation d)).address = ctx.address + if ctx.current.isSome then d else 0 := by
  unfold moved Movement.translation
  cases ctx.current <;> rfl

/-- A label names the cursor, and moves with it. -/
theorem label_translated (identifier : String) (kind : SymbolKind) :
    { Symbol.declare identifier kind with
        value := (ctx.moved (.translation d)).address, home := ctx.current, file := ctx.file } =
      { Symbol.declare identifier kind with
        value := ctx.address, home := ctx.current, file := ctx.file }.moved (.translation d) := by
  rw [address_translated, Symbol.moved, Symbol.shift]
  cases ctx.current <;> rfl

/-- A value is defined `d` bytes further on as it is here, at an address that is `d` further on. -/
theorem defineValue_translated {e : Expr} (he : e.IsFunctionFree) (h : ctx.HasStart)
    (identifier : String) (kind : SymbolKind) :
    defineValue identifier e kind (ctx.moved (.translation d)) =
      Construct.translated d id (defineValue identifier e kind ctx) := by
  rw [defineValue_apply, defineValue_apply, Expr.eval_moved he h]
  cases hv : e.eval ctx with
  | error err => rfl
  | ok v =>
    have hanchored := Expr.eval_isAnchored he h hv
    obtain ⟨constant, anchor⟩ := v
    match anchor with
    | none =>
      have hsymbol := ctx.withSymbol_moved (.translation d)
        { Symbol.declare identifier kind with isAbsolute := true, value := constant }
      exact congrArg (EStateM.Result.ok ()) hsymbol
    | some (.unresolved name) => rfl
    | some (.symbol id) =>
      simp only [Except.map, Value.moved, moved, Value.homeOf?_moved]
      cases hhome : Value.homeOf? ctx.symbols id with
      | none => rfl
      | some home =>
        -- the symbol is defined in the section that it moves with
        rw [Value.shiftOf_of_home (hanchored id rfl) hhome]
        have hsymbol := ctx.withSymbol_moved (.translation d)
          { Symbol.declare identifier kind with
            value := constant, home := some home, file := ctx.file }
        exact congrArg (EStateM.Result.ok ()) hsymbol

end Context

/-! ## Leaves -/

/-- What is known of an operand are numbers, which do not move. -/
theorem Instruction.knownValues_moved {i : Instruction} {ctx : Context} (h : ctx.HasStart)
    (hi : ∀ e ∈ i.exprs, e.IsFunctionFree) (m : Movement) :
    i.knownValues (some (ctx.moved m)) = i.knownValues (some ctx) := by
  apply List.map_congr_left
  intro op hop
  cases op with
  | register | memory | offset | branch => rfl
  | immediate imm =>
    have he : imm.expr.IsFunctionFree :=
      hi _ (List.mem_flatMap.2 ⟨_, hop, List.mem_singleton.2 rfl⟩)
    simp only [knownOperand, knownExpr, Option.bind_some, Expr.eval_moved he h]
    cases imm.expr.eval ctx with
    | error e => rfl
    | ok v =>
      by_cases hv : v.anchor = none
      · simp only [Except.map, Value.moved_of_none hv]
      · simp [Except.map, Value.moved, Value.isAbsolute, hv]

namespace Statement

variable {d : Word} {ctx : Context}

/-- A distance keeps the alignment that a statement asks for. -/
def IsKeptBy (d : Word) : Statement → Prop
  | .align boundary _ => (boundary.toNat : Int) ∣ d.toInt
  | _ => True

instance (d : Word) : DecidablePred (IsKeptBy d) := fun s => by
  unfold IsKeptBy
  split <;> infer_instance

/-- Padding is the same `d` bytes further on, if `d` keeps the boundary. -/
theorem padding_translated {boundary : UInt64} (hd : (boundary.toNat : Int) ∣ d.toInt)
    (fill : UInt8) :
    padding (ctx.moved (.translation d)) boundary fill = padding ctx boundary fill := by
  unfold padding
  cases hpow : Word.isPowerOfTwoNat boundary.toNat with
  | false => simp
  | true =>
    have hcursor : (ctx.moved (.translation d)).address.padding boundary =
        ctx.address.padding boundary := by
      rw [Context.address_translated]
      by_cases hcurrent : ctx.current.isSome
      · rw [if_pos hcurrent, Word.padding_add hpow hd]
      · simp [hcurrent]
    rw [hcursor]

/-- A leaf is placed in a translated context as it was placed, or refused as it was refused. -/
theorem place_translated (h : ctx.HasStart) {leaf : Statement}
    (hfree : ∀ e ∈ leaf.exprs, e.IsFunctionFree) (hkept : leaf.IsKeptBy d) :
    leaf.place (ctx.moved (.translation d)) =
      Construct.translated d id (leaf.place ctx) := by
  cases leaf with
  | label identifier kind =>
    rw [place_label_apply, place_label_apply, Context.checkNew_moved]
    cases ctx.checkNew identifier with
    | error e => rfl
    | ok _ =>
      have hsymbol := ctx.withSymbol_moved (.translation d)
        { Symbol.declare identifier kind with
          value := ctx.address, home := ctx.current, file := ctx.file }
      rw [← Context.label_translated] at hsymbol
      exact congrArg (EStateM.Result.ok []) hsymbol
  | define identifier expr kind =>
    rw [place_define_apply, place_define_apply, Context.checkNew_moved]
    cases ctx.checkNew identifier with
    | error e => rfl
    | ok _ =>
      dsimp only
      rw [Context.defineValue_translated (hfree expr (List.mem_singleton.2 rfl)) h]
      cases Context.defineValue identifier expr kind ctx <;> rfl
  | external identifier =>
    rw [place_external_apply, place_external_apply, Context.checkNew_moved]
    cases ctx.checkNew identifier with
    | error e => rfl
    | ok _ =>
      have hsymbol := ctx.withSymbol_moved (.translation d) (.declare identifier .imported)
      exact congrArg (EStateM.Result.ok []) hsymbol
  | align boundary fill =>
    rw [place_align_apply, place_align_apply, padding_translated hkept]
    cases padding ctx boundary fill <;> rfl
  | data declaration =>
    rw [place_data_apply, place_data_apply]
    cases declaration.items <;> rfl
  | comment text => rfl
  | group children => rfl
  | instruction i =>
    rw [place_instruction_apply, place_instruction_apply, Instruction.knownValues_moved h hfree]
    have hmode : (ctx.moved (.translation d)).mode = ctx.mode := rfl
    rw [hmode]
    cases i.encode ctx.mode (i.knownValues (some ctx)) <;> rfl

end Statement

/-! ## Leaves one after the other -/

namespace Statement

variable {d : Word} {ctx : Context}

/-- Items move a cursor that is further on as far as they moved it. -/
theorem advance_translated (ctx : Context) (items : List Item) :
    { ctx.moved (.translation d) with
        address := advance (ctx.moved (.translation d)).address items } =
      { ctx with address := advance ctx.address items }.moved (.translation d) := by
  simp only [Context.moved, advance_eq, add_right_comm ctx.address]

theorem constructLeaf_translated (h : ctx.HasStart) {leaf : Statement}
    (hfree : ∀ e ∈ leaf.exprs, e.IsFunctionFree) (hkept : leaf.IsKeptBy d) :
    constructLeaf leaf (ctx.moved (.translation d)) =
      Construct.translated d id (constructLeaf leaf ctx) := by
  rw [constructLeaf, bind_apply, bind_apply, place_translated h hfree hkept]
  cases leaf.place ctx with
  | error e after => rfl
  | ok items after => exact congrArg (EStateM.Result.ok items) (advance_translated after items)

/-- A walk over leaves makes the same items `d` bytes further on, or stops with the same error. -/
theorem constructAll_translated {l : List Statement} (hl : ∀ leaf ∈ l, leaf.IsLeaf)
    (hfree : ∀ leaf ∈ l, ∀ e ∈ leaf.exprs, e.IsFunctionFree) (hkept : ∀ leaf ∈ l, leaf.IsKeptBy d)
    (h : ctx.HasStart) :
    constructAll l (ctx.moved (.translation d)) =
      Construct.translated d id (constructAll l ctx) := by
  induction l generalizing ctx with
  | nil => rfl
  | cons leaf rest ih =>
    rw [constructAll, construct_of_isLeaf (hl leaf (by simp)), bind_apply, bind_apply,
      constructLeaf_translated h (hfree leaf (by simp)) (hkept leaf (by simp))]
    cases hleaf : constructLeaf leaf ctx with
    | error e after => rfl
    | ok items after =>
      -- the rest finds the start of its section where the leaf found it
      have hstart : after.HasStart := by
        obtain ⟨placed, hplace, rfl⟩ := constructLeaf_eq_ok.1 hleaf
        exact (h.of_extends (place_extends hplace) : placed.HasStart)
      have hrest := ih (fun x hx => hl x (by simp [hx])) (fun x hx => hfree x (by simp [hx]))
        (fun x hx => hkept x (by simp [hx])) hstart
      simp only [Construct.translated, id_eq, bind_apply, hrest]
      cases constructAll rest after <;> rfl

end Statement

/-! ## Sections -/

/-- The place of a section that was put `d` bytes further on. -/
def PlacedSection.translate (d : Word) (p : PlacedSection) : PlacedSection :=
  ⟨p.start + d, p.stop + d, p.items⟩

namespace Section

variable {d : Word}

/-- A distance keeps the alignment of a section and of what is in it. -/
structure IsKeptBy (d : Word) (s : Section) : Prop where
  alignment : (s.alignment.toNat : Int) ∣ d.toInt
  leaves : ∀ leaf ∈ Statement.allLeaves s.contents, leaf.IsKeptBy d

instance (d : Word) : DecidablePred (IsKeptBy d) := fun s =>
  decidable_of_iff ((s.alignment.toNat : Int) ∣ d.toInt ∧
      ∀ leaf ∈ Statement.allLeaves s.contents, leaf.IsKeptBy d)
    ⟨fun h => ⟨h.1, h.2⟩, fun h => ⟨h.alignment, h.leaves⟩⟩

theorem startAfter_translated {s : Section} (hs : s.address = none) (hkept : s.IsKeptBy d)
    (stop : Word) : s.startAfter (stop + d) = (s.startAfter stop).map (· + d) := by
  unfold startAfter
  rw [hs]
  cases hpow : Word.isPowerOfTwoNat s.alignment.toNat with
  | false => simp [Except.map]
  | true => simp [Except.map, Word.align_add hpow hkept.alignment]

/-- The first section starts `d` bytes further on, if its address is that. -/
theorem startAfter_zero_translated {s : Section} {a : Word} (hs : s.address = some a)
    (ha : 0 ≤ a.toInt) (hd : 0 ≤ (a + d).toInt) :
    { s with address := some (a + d) }.startAfter 0 = (s.startAfter 0).map (· + d) := by
  have hzero : (0 : Word).toInt = 0 := by decide
  unfold startAfter
  rw [hs]
  cases Word.isPowerOfTwoNat s.alignment.toNat with
  | false => simp [Except.map]
  | true =>
    have here : ¬ a.toInt < (0 : Word).toInt := by omega
    have there : ¬ (a + d).toInt < (0 : Word).toInt := by omega
    simp only [Bool.not_true, Bool.false_eq_true, ↓reduceIte, if_neg here, if_neg there, Except.map]

/-- A section that starts `d` bytes further on is the section, `d` bytes further on. -/
theorem construct_translated {s : Section} (hfree : s.IsFunctionFree) (hkept : s.IsKeptBy d)
    (address : Option Word) {stop stop' : Word}
    (hstart : { s with address := address }.startAfter stop' = (s.startAfter stop).map (· + d))
    (id : SectionId) (ctx : Context) :
    { s with address := address }.construct id stop' (ctx.moved (.translation d)) =
      Construct.translated d (PlacedSection.translate d) (s.construct id stop ctx) := by
  unfold construct
  rw [hstart]
  cases s.startAfter stop with
  | error e => rfl
  | ok start =>
    have hleaves := Statement.constructAll_translated
      (Statement.isLeaf_of_mem_allLeaves s.contents) (fun leaf => hfree.of_mem) hkept.leaves
      (ctx.hasStart_openSection id start)
    rw [← Statement.constructAll_allLeaves, ← Context.openSection_translated] at hleaves
    simp only [Except.map, bind_apply, modify_apply, hleaves]
    cases hitems : Statement.constructAll s.contents (ctx.openSection id start).2 with
    | error e after => rfl
    | ok items after =>
      have hstop : (after.moved (.translation d)).address = after.address + d := by
        rw [Statement.constructAll_allLeaves] at hitems
        have hext := (Statement.constructAll_advance (Statement.isLeaf_of_mem_allLeaves _) hitems).2
        have hcurrent : after.current = some id := hext.current
        rw [Context.address_translated, hcurrent]
        rfl
      simp only [Construct.translated, id_eq]
      split
      · rfl
      · simp only [bind_apply, get_apply, pure_apply, PlacedSection.translate, hstop]

end Section

namespace ObjectFile

variable {d : Word}

/-- Sections that follow one that stops `d` bytes further on are the sections, `d` bytes further
on, up to the same error. -/
theorem constructSections_translated {l : List Section} (haddress : ∀ s ∈ l, s.address = none)
    (hfree : ∀ s ∈ l, s.IsFunctionFree) (hkept : ∀ s ∈ l, s.IsKeptBy d) (id : SectionId)
    (stop : Word) (placed : List PlacedSection) (ctx : Context) :
    constructSections id (stop + d) (placed.map (PlacedSection.translate d))
        (ctx.moved (.translation d)) l =
      ((constructSections id stop placed ctx l).1,
        (constructSections id stop placed ctx l).2.1.moved (.translation d),
        (constructSections id stop placed ctx l).2.2.map (PlacedSection.translate d)) := by
  induction l generalizing id stop placed ctx with
  | nil => rfl
  | cons s rest ih =>
    have hs := s.startAfter_translated (haddress s (by simp)) (hkept s (by simp)) stop
    have hhead := Section.construct_translated (hfree s (by simp)) (hkept s (by simp)) s.address hs
      id ctx
    have htail := ih (fun x hx => haddress x (by simp [hx])) (fun x hx => hfree x (by simp [hx]))
      (fun x hx => hkept x (by simp [hx])) (id + 1)
    simp only [constructSections, hhead]
    cases s.construct id stop ctx with
    | error e after => rfl
    | ok p after =>
      have hnext := htail p.stop (placed ++ [p]) after
      rw [List.map_append] at hnext
      exact hnext

/-- The whole first pass, `d` bytes further on. -/
theorem constructSections_first_translated {first : Section} {rest : List Section} {a : Word}
    (hfirst : first.address = some a) (hrest : ∀ s ∈ rest, s.address = none)
    (hfree : ∀ s ∈ first :: rest, s.IsFunctionFree) (hkept : ∀ s ∈ first :: rest, s.IsKeptBy d)
    (ha : 0 ≤ a.toInt) (had : 0 ≤ (a + d).toInt) (mode : Mode) :
    constructSections 0 0 [] (.new mode) ({ first with address := some (a + d) } :: rest) =
      ((constructSections 0 0 [] (.new mode) (first :: rest)).1,
        (constructSections 0 0 [] (.new mode) (first :: rest)).2.1.moved (.translation d),
        (constructSections 0 0 [] (.new mode) (first :: rest)).2.2.map
          (PlacedSection.translate d)) := by
  have hhead := Section.construct_translated (hfree first (by simp)) (hkept first (by simp))
    (some (a + d)) (Section.startAfter_zero_translated hfirst ha had) 0 (.new mode)
  rw [show (Context.new mode).moved (.translation d) = .new mode from rfl] at hhead
  simp only [constructSections, hhead]
  cases first.construct 0 0 (.new mode) with
  | error e after => rfl
  | ok p after =>
    exact constructSections_translated hrest (fun s hs => hfree s (by simp [hs]))
      (fun s hs => hkept s (by simp [hs])) 1 p.stop [p] after

/-- A program that starts `d` bytes further on, where `d` keeps every alignment in it, is laid out
as before or refused as before. Its items are the same, and its sections and the addresses in them
are `d` bytes further on; numbers and imports stay. -/
theorem construct_translation {obj : ObjectFile} {first : Section} {rest : List Section}
    {a d : Word} (hsections : obj.sections = first :: rest) (hfirst : first.address = some a)
    (hrest : ∀ s ∈ rest, s.address = none) (hfree : ∀ s ∈ obj.sections, s.IsFunctionFree)
    (hkept : ∀ s ∈ obj.sections, s.IsKeptBy d) (ha : 0 ≤ a.toInt) (had : 0 ≤ (a + d).toInt) :
    let there := { obj with sections := { first with address := some (a + d) } :: rest }
    there.construct.1 = obj.construct.1 ∧
      (obj.construct.1 = .ok () →
        there.construct.2.placed =
            obj.construct.2.placed.map (fun p => ⟨p.start + d, p.stop + d, p.items⟩) ∧
          there.construct.2.context.symbols.symbols =
            obj.construct.2.context.symbols.symbols.map (Symbol.translate d)) := by
  rw [hsections] at hfree hkept
  have hrun := constructSections_first_translated hfirst hrest hfree hkept ha had obj.context.mode
  intro there
  by_cases hstage : obj.stage = .fresh
  · simp only [there, construct, hstage, hsections, hrun, ne_eq, not_true_eq_false, ↓reduceIte]
    refine ⟨trivial, fun _ => ⟨rfl, ?_⟩⟩
    exact List.map_congr_left fun s _ => s.moved_translation d
  · simp only [there, construct, ne_eq, hstage, not_false_eq_true, ↓reduceIte]
    exact ⟨trivial, fun h => nomatch h⟩

/-- Code with padding in it, an immediate that is a distance, and aligned data behind. -/
def paddedCode (address : Word) : ObjectFile :=
  let text := { Section.new "text" .text with address := some address, contents :=
    [.label "entry" .exported, .align 16 0x90, .label "body" .internal,
      .instruction ⟨"add", [.register .eax, .imm (.binary .sub (.reference "body") .sectionStart)]⟩,
      .instruction ⟨"jmp", [.near (.reference "entry")]⟩] }
  let data := { Section.new "data" .data with alignment := 32, contents :=
    [.external "puts", .define "table" (.binary .add .position (.constant 4)) .internal,
      .define "size" (.binary .sub (.reference "table") .sectionStart) .internal,
      .data (.values .bit32 [.reference "body", .reference "puts"])] }
  ((ObjectFile.new .bit32 .relocatable).addSection text).addSection data

/-- The padded code is the same 32 bytes before where it was. -/
theorem construct_translation_paddedCode :
    (∀ s ∈ (paddedCode 0x1234).sections, s.IsFunctionFree ∧ s.IsKeptBy (-0x20)) ∧
      (paddedCode 0x1214).construct.1 = .ok () ∧
      (paddedCode 0x1214).construct.2.placed.map
          (fun p => (p.start, p.stop, p.items.map Item.length)) =
        [(0x1214, 0x1228, [12, 3, 5]), (0x1240, 0x1248, [4, 4])] ∧
      (paddedCode 0x1214).construct.2.context.symbols.symbols.map
          (fun s => (s.identifier, s.value)) =
        [("section.0.start", 0x1214), ("entry", 0x1214), ("body", 0x1220),
          ("section.1.start", 0x1240), ("puts", 0), ("table", 0x1244), ("size", 4)] := by
  have hprogram : ∀ s ∈ (paddedCode 0x1234).sections, s.IsFunctionFree ∧ s.IsKeptBy (-0x20) := by
    decide +kernel
  have hok : (paddedCode 0x1234).construct.1 = .ok () := eq_ok_of_toOption (by decide +kernel)
  obtain ⟨hresult, hmoved⟩ := construct_translation (a := 0x1234) (d := -0x20)
    (rfl : (paddedCode 0x1234).sections = _) rfl (by simp [Section.new])
    (fun s hs => (hprogram s hs).1) (fun s hs => (hprogram s hs).2) (by decide) (by decide)
  obtain ⟨hplaced, hsymbols⟩ := hmoved hok
  change (paddedCode 0x1214).construct.1 = _ at hresult
  change (paddedCode 0x1214).construct.2.placed = _ at hplaced
  change (paddedCode 0x1214).construct.2.context.symbols.symbols = _ at hsymbols
  rw [hresult, hplaced, hsymbols]
  refine ⟨hprogram, hok, by decide +kernel, by decide +kernel⟩

end ObjectFile

end Assembler
