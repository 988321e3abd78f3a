import Assembler.ObjectFile
import Assembler.Proofs.Passes
import Assembler.Proofs.SymbolTable

/-!
# What the first pass does

A group stands for its children, so that the first pass is a walk over the leaves of the program
tree (`constructAll_allLeaves`). One leaf either leaves the tables alone or adds one symbol under an
identifier that was free (`place_cases`); everything a walk keeps follows from that. `place_eq_ok`
says which symbol it is. A leaf tests and evaluates before it changes anything, so that one that
fails has changed nothing (`place_failsCleanly`).

* `constructAll_keeps`: what every leaf keeps, a walk keeps.
* `constructAll_advance`: a walk moves the cursor by the lengths of its items,
  and keeps every symbol that it finds.
* `constructSections_split`: the run over all sections, cut before and after one of them.
* `constructSections_frames`: what the run never touches, wherever it stops.
-/

namespace Assembler

/-! ## Leaves -/

namespace Statement

mutual

/-- The statements of a tree that are not groups, in depth-first order. -/
def leaves : Statement → List Statement
  | .group children => allLeaves children
  | s => [s]

/-- The leaves of trees one after the other. -/
def allLeaves : List Statement → List Statement
  | [] => []
  | s :: rest => leaves s ++ allLeaves rest

end

/-- A statement that is not a group. -/
def IsLeaf : Statement → Prop
  | .group _ => False
  | _ => True

theorem construct_of_isLeaf {s : Statement} (h : s.IsLeaf) : construct s = constructLeaf s := by
  cases s <;> first | rfl | exact h.elim

theorem constructAll_append (a b : List Statement) :
    constructAll (a ++ b) = do
      let items ← constructAll a
      let more ← constructAll b
      return items ++ more := by
  induction a with
  | nil => simp [constructAll]
  | cons s a ih =>
    simp only [List.cons_append, constructAll, ih, bind_assoc, pure_bind, List.append_assoc]

mutual

/-- Constructing a tree is constructing its leaves. -/
theorem construct_leaves : (s : Statement) → construct s = constructAll s.leaves
  | .group children => by rw [construct, leaves, constructAll_allLeaves children]
  | .label _ _ | .define _ _ _ | .external _ | .align _ _ | .data _ | .comment _
  | .instruction _ => by simp [leaves, constructAll]

/-- Constructing trees is constructing their leaves. -/
theorem constructAll_allLeaves : (l : List Statement) → constructAll l = constructAll (allLeaves l)
  | [] => rfl
  | s :: rest => by
    rw [allLeaves, constructAll_append, constructAll, construct_leaves s,
      constructAll_allLeaves rest]

end

mutual

theorem isLeaf_of_mem_leaves : (s : Statement) → ∀ leaf ∈ s.leaves, leaf.IsLeaf
  | .group children => isLeaf_of_mem_allLeaves children
  | .label _ _ | .define _ _ _ | .external _ | .align _ _ | .data _ | .comment _
  | .instruction _ => by simp [leaves, IsLeaf]

theorem isLeaf_of_mem_allLeaves : (l : List Statement) → ∀ leaf ∈ allLeaves l, leaf.IsLeaf
  | [] => by simp [allLeaves]
  | s :: rest => by
    intro leaf h
    rw [allLeaves, List.mem_append] at h
    rcases h with h | h
    · exact isLeaf_of_mem_leaves s leaf h
    · exact isLeaf_of_mem_allLeaves rest leaf h

end

end Statement

/-! ## One leaf -/

/-- The second context has the cursor's section of the first and every symbol that the first
finds. -/
structure Context.Extends (before after : Context) : Prop where
  current : after.current = before.current
  find? : ∀ {identifier s}, before.symbols.find? identifier = some s →
    after.symbols.find? identifier = some s

namespace Context

theorem Extends.refl (ctx : Context) : ctx.Extends ctx := ⟨rfl, id⟩

theorem find?_eq_none_of_checkNew {ctx : Context} {identifier : String}
    (h : ctx.checkNew identifier = .ok ()) : ctx.symbols.find? identifier = none := by
  unfold checkNew at h
  split at h
  · cases h
  · split at h
    · cases h
    next hnone => simpa using hnone

/-- The context with one more symbol. -/
def withSymbol (ctx : Context) (s : Symbol) : Context :=
  { ctx with symbols := (ctx.symbols.insert s).2 }

/-- A symbol under a free identifier hides no other. -/
theorem extends_withSymbol {ctx : Context} {s : Symbol}
    (hnew : ctx.symbols.find? s.identifier = none) : ctx.Extends (ctx.withSymbol s) := by
  refine ⟨rfl, ?_⟩
  intro identifier u hu
  have hne : identifier ≠ s.identifier := by
    rintro rfl
    rw [hnew] at hu
    cases hu
  rw [← hu]
  exact SymbolTable.find?_insert_ne hne

end Context

/-- What naming a value does: the expression is evaluated first, and the symbol comes last. -/
theorem Context.defineValue_apply (identifier : String) (e : Expr) (kind : SymbolKind)
    (ctx : Context) :
    defineValue identifier e kind ctx =
      match e.eval ctx with
      | .error cause => .error cause ctx
      | .ok v =>
        match v.anchor with
        | none =>
          .ok () (ctx.insert
            { Symbol.declare identifier kind with isAbsolute := true, value := v.constant }).2
        | some (.symbol id) =>
          match Value.homeOf? ctx.symbols id with
          | none => .error (.illegalOperation "equ") ctx
          | some home =>
            .ok () { ctx with symbols :=
              (ctx.symbols.define (.declare identifier kind) v.constant (some home) ctx.file).2 }
        | some (.unresolved name) => .error (.unresolvedSymbol name) ctx := by
  rw [defineValue, bind_apply, get_apply]
  dsimp only
  cases e.eval ctx with
  | error cause => rfl
  | ok v =>
    rw [ofExcept_ok, bind_apply, pure_apply]
    dsimp only
    cases v.anchor with
    | none => rfl
    | some anchor =>
      cases anchor with
      | symbol id =>
        dsimp only
        rw [bind_apply, get_apply]
        dsimp only
        cases Value.homeOf? ctx.symbols id <;> rfl
      | unresolved name => rfl

/-- A value that is not defined leaves the context as it was: the definition comes after everything
that can fail. -/
theorem Context.defineValue_failsCleanly (identifier : String) (e : Expr) (kind : SymbolKind) :
    FailsCleanly (defineValue identifier e kind) := by
  refine onlyReads_get.bind_failsCleanly fun ctx => ?_
  refine (onlyReads_ofExcept _).bind_failsCleanly fun v => ?_
  dsimp only
  cases v.anchor with
  | none => exact (succeeds_modify _).failsCleanly
  | some anchor =>
    cases anchor with
    | symbol id =>
      refine onlyReads_get.bind_failsCleanly fun ctx => ?_
      cases Value.homeOf? ctx.symbols id with
      | none => exact (onlyReads_throw _).failsCleanly
      | some home => exact (succeeds_modify _).failsCleanly
    | unresolved name => exact (onlyReads_throw _).failsCleanly

namespace Statement

/-! ### What each kind of leaf does -/

variable {ctx : Context}

theorem place_label_apply (identifier : String) (kind : SymbolKind) :
    (label identifier kind).place ctx =
      match ctx.checkNew identifier with
      | .ok () => .ok [] (ctx.defineHere (.declare identifier kind) ctx.address).2
      | .error e => .error e ctx := by
  rw [place, bind_apply, get_apply]
  dsimp only
  cases ctx.checkNew identifier <;> rfl

/-- A definition tests its name before it evaluates, and evaluates before it defines. -/
theorem place_define_apply (identifier : String) (expr : Expr) (kind : SymbolKind) :
    (define identifier expr kind).place ctx =
      match ctx.checkNew identifier with
      | .ok () =>
        match Context.defineValue identifier expr kind ctx with
        | .ok () after => .ok [] after
        | .error e after => .error (.expression identifier e) after
      | .error e => .error e ctx := by
  rw [place, bind_apply, get_apply]
  dsimp only
  cases ctx.checkNew identifier with
  | error e => rfl
  | ok u =>
    rw [ofExcept_ok, bind_apply, pure_apply]
    dsimp only
    rw [bind_apply, adaptExcept_apply]
    cases Context.defineValue identifier expr kind ctx <;> rfl

theorem place_external_apply (identifier : String) :
    (external identifier).place ctx =
      match ctx.checkNew identifier with
      | .ok () => .ok [] (ctx.insert (.declare identifier .imported)).2
      | .error e => .error e ctx := by
  rw [place, bind_apply, get_apply]
  dsimp only
  cases ctx.checkNew identifier <;> rfl

theorem place_align_apply (boundary : UInt64) (fill : UInt8) :
    (align boundary fill).place ctx =
      match padding ctx boundary fill with
      | .ok items => .ok items ctx
      | .error e => .error e ctx := by
  rw [place, bind_apply, get_apply]
  dsimp only
  cases padding ctx boundary fill <;> rfl

theorem place_data_apply (declaration : DataDeclaration) :
    (data declaration).place ctx =
      match declaration.items with
      | .ok items => .ok items ctx
      | .error e => .error e ctx := by
  rw [place]
  cases declaration.items <;> rfl

theorem place_instruction_apply (i : Instruction) :
    (instruction i).place ctx =
      match i.encode ctx.mode (i.knownValues (some ctx)) with
      | .ok encoded => .ok [.instruction encoded] ctx
      | .error e => .error (.encoding i.text e) ctx := by
  rw [place, bind_apply, get_apply]
  dsimp only
  cases i.encode ctx.mode (i.knownValues (some ctx)) <;> rfl

/-- An instruction is placed as its encoding, and changes nothing. -/
theorem place_instruction_eq_ok {i : Instruction} {items : List Item} {after : Context} :
    (instruction i).place ctx = .ok items after ↔
      (∃ encoded, i.encode ctx.mode (i.knownValues (some ctx)) = .ok encoded ∧
        items = [.instruction encoded]) ∧ after = ctx := by
  rw [place_instruction_apply]
  cases i.encode ctx.mode (i.knownValues (some ctx)) with
  | error e => simp
  | ok encoded => simp [eq_comm]

/-- A leaf that cannot be placed has changed nothing: what can fail comes before what defines a
symbol. -/
theorem place_failsCleanly (leaf : Statement) : FailsCleanly leaf.place := by
  cases leaf with
  | label | external =>
    refine onlyReads_get.bind_failsCleanly fun ctx => ?_
    refine (onlyReads_ofExcept _).bind_failsCleanly fun _ => ?_
    exact ((succeeds_modify _).bind fun _ => succeeds_pure _).failsCleanly
  | define identifier expr kind =>
    refine onlyReads_get.bind_failsCleanly fun ctx => ?_
    refine (onlyReads_ofExcept _).bind_failsCleanly fun _ => ?_
    have hdefine := Context.defineValue_failsCleanly identifier expr kind
    exact (hdefine.adaptExcept _).bind_succeeds fun _ => succeeds_pure _
  | align boundary fill =>
    exact onlyReads_get.bind_failsCleanly fun ctx => (onlyReads_ofExcept _).failsCleanly
  | data declaration => exact (onlyReads_ofExcept _).failsCleanly
  | comment text => exact (onlyReads_pure _).failsCleanly
  | group children => exact (onlyReads_pure _).failsCleanly
  | instruction i =>
    refine onlyReads_get.bind_failsCleanly fun ctx => ?_
    cases i.encode ctx.mode (i.knownValues (some ctx)) with
    | ok encoded => exact (onlyReads_pure _).failsCleanly
    | error e => exact (onlyReads_throw _).failsCleanly

/-! ### Symbols -/

/-- The identifier that a leaf declares. -/
def declares? : Statement → Option String
  | .label identifier _ => some identifier
  | .define identifier _ _ => some identifier
  | .external identifier => some identifier
  | _ => none

/-- The symbol that a leaf stands for where it is visited: a label names the cursor, a definition a
number or an address in the section of the symbol that it moves with, and an external nothing. -/
def symbolIn? (ctx : Context) : Statement → Option Symbol
  | .label identifier kind =>
    some { Symbol.declare identifier kind with
      value := ctx.address, home := ctx.current, file := ctx.file }
  | .define identifier expr kind => do
    let v ← (expr.eval ctx).toOption
    let symbol := Symbol.declare identifier kind
    match v.anchor with
    | none => some { symbol with isAbsolute := true, value := v.constant }
    | some (.symbol id) =>
      (Value.homeOf? ctx.symbols id).map fun home =>
        { symbol with value := v.constant, home := some home, file := ctx.file }
    | some (.unresolved _) => none
  | .external identifier => some (.declare identifier .imported)
  | _ => none

/-- What naming a value does to a context. -/
theorem symbolIn?_of_defineValue {ctx after : Context} {identifier : String} {expr : Expr}
    {kind : SymbolKind} (h : Context.defineValue identifier expr kind ctx = .ok () after) :
    ∃ s, (define identifier expr kind).symbolIn? ctx = some s ∧ s.identifier = identifier ∧
      after = ctx.withSymbol s := by
  rw [Context.defineValue_apply] at h
  split at h
  · cases h
  next v hv =>
    simp only [symbolIn?, hv, Except.toOption, Option.bind_eq_bind, Option.bind_some]
    cases hanchor : v.anchor with
    | none =>
      rw [hanchor] at h
      cases h
      exact ⟨_, rfl, rfl, rfl⟩
    | some anchor =>
      rw [hanchor] at h
      cases anchor with
      | symbol id =>
        cases hhome : Value.homeOf? ctx.symbols id with
        | none =>
          simp only [hhome] at h
          cases h
        | some home =>
          simp only [hhome] at h
          cases h
          exact ⟨_, congrArg (Option.map _) hhome, rfl, rfl⟩
      | unresolved name => cases h

/-- What a leaf did that is placed: nothing, or name its symbol under a free identifier. -/
theorem place_eq_ok {leaf : Statement} {ctx after : Context} {items : List Item}
    (h : leaf.place ctx = .ok items after) :
    (leaf.declares? = none ∧ after = ctx) ∨
      ∃ identifier s, leaf.declares? = some identifier ∧ ctx.checkNew identifier = .ok () ∧
        leaf.symbolIn? ctx = some s ∧ s.identifier = identifier ∧ after = ctx.withSymbol s := by
  -- only what names something touches the tables, and it asks `checkNew` first
  cases leaf with
  | label identifier kind =>
    rw [place_label_apply] at h
    split at h
    next hnew =>
      cases h
      exact .inr ⟨identifier, _, rfl, hnew, rfl, rfl, rfl⟩
    · cases h
  | define identifier expr kind =>
    rw [place_define_apply] at h
    split at h
    next hnew =>
      split at h
      next hdefine =>
        cases h
        obtain ⟨s, hs, hname, rfl⟩ := symbolIn?_of_defineValue hdefine
        exact .inr ⟨identifier, s, rfl, hnew, hs, hname, rfl⟩
      · cases h
    · cases h
  | external identifier =>
    rw [place_external_apply] at h
    split at h
    next hnew =>
      cases h
      exact .inr ⟨identifier, _, rfl, hnew, rfl, rfl, rfl⟩
    · cases h
  | align boundary fill =>
    rw [place_align_apply] at h
    split at h
    · cases h
      exact .inl ⟨rfl, rfl⟩
    · cases h
  | data declaration =>
    rw [place_data_apply] at h
    split at h
    · cases h
      exact .inl ⟨rfl, rfl⟩
    · cases h
  | comment text =>
    cases h
    exact .inl ⟨rfl, rfl⟩
  | group children =>
    cases h
    exact .inl ⟨rfl, rfl⟩
  | instruction i =>
    rw [place_instruction_apply] at h
    split at h
    · cases h
      exact .inl ⟨rfl, rfl⟩
    · cases h

/-- What one leaf can do to the tables: nothing, or name one thing under a free identifier. -/
theorem place_cases {leaf : Statement} {ctx after : Context} {items : List Item}
    (h : leaf.place ctx = .ok items after) :
    after = ctx ∨
      ∃ s, ctx.symbols.find? s.identifier = none ∧ after = ctx.withSymbol s := by
  obtain ⟨-, rfl⟩ | ⟨identifier, s, -, hnew, -, rfl, rfl⟩ := place_eq_ok h
  · exact .inl rfl
  · exact .inr ⟨s, Context.find?_eq_none_of_checkNew hnew, rfl⟩

/-- A leaf that names something makes no item. -/
theorem place_items_of_declares {leaf : Statement} {ctx after : Context} {items : List Item}
    {identifier : String} (h : leaf.place ctx = .ok items after)
    (hdeclares : leaf.declares? = some identifier) : items = [] := by
  cases leaf with
  | label =>
    rw [place_label_apply] at h
    split at h <;> cases h
    rfl
  | define =>
    rw [place_define_apply] at h
    split at h
    · split at h <;> cases h
      rfl
    · cases h
  | external =>
    rw [place_external_apply] at h
    split at h <;> cases h
    rfl
  | align | data | comment | group | instruction => cases hdeclares

/-- A label makes no item and names the cursor. -/
theorem place_label {ctx after : Context} {identifier : String} {kind : SymbolKind}
    {items : List Item} (h : (label identifier kind).place ctx = .ok items after) :
    items = [] ∧ after.symbols.find? identifier =
      some { Symbol.declare identifier kind with
        value := ctx.address, home := ctx.current, file := ctx.file } := by
  rw [place_label_apply] at h
  split at h
  · cases h
    exact ⟨rfl, SymbolTable.find?_insert_self _ _⟩
  · cases h

/-- A leaf moves the cursor past its items and keeps what it finds in the tables. -/
theorem constructLeaf_eq_ok {leaf : Statement} {ctx after : Context} {items : List Item} :
    constructLeaf leaf ctx = .ok items after ↔
      ∃ placed, leaf.place ctx = .ok items placed ∧
        after = { placed with address := advance placed.address items } := by
  rw [constructLeaf, bind_eq_ok]
  constructor
  · rintro ⟨made, placed, hplace, h⟩
    cases h
    exact ⟨placed, hplace, rfl⟩
  · rintro ⟨placed, hplace, rfl⟩
    exact ⟨items, placed, hplace, rfl⟩

/-- A leaf fails where it cannot be placed, with the context as it was. -/
theorem constructLeaf_eq_error {leaf : Statement} {ctx after : Context} {e : AssemblyError} :
    constructLeaf leaf ctx = .error e after ↔ leaf.place ctx = .error e ctx ∧ after = ctx := by
  rw [constructLeaf, bind_eq_error]
  constructor
  · rintro (h | ⟨_, _, -, h⟩)
    · obtain rfl := leaf.place_failsCleanly h
      exact ⟨h, rfl⟩
    · cases h
  · rintro ⟨h, rfl⟩
    exact .inl h

theorem place_address {leaf : Statement} {ctx after : Context} {items : List Item}
    (h : leaf.place ctx = .ok items after) : after.address = ctx.address := by
  rcases place_cases h with rfl | ⟨s, -, rfl⟩ <;> rfl

theorem place_extends {leaf : Statement} {ctx after : Context} {items : List Item}
    (h : leaf.place ctx = .ok items after) : ctx.Extends after := by
  rcases place_cases h with rfl | ⟨s, hnew, rfl⟩
  · exact .refl _
  · exact Context.extends_withSymbol hnew

/-! ## Leaves one after the other -/

theorem constructAll_cons_eq_ok {leaf : Statement} {rest : List Statement} (hleaf : leaf.IsLeaf)
    {ctx after : Context} {items : List Item} :
    constructAll (leaf :: rest) ctx = .ok items after ↔
      ∃ placed made more, leaf.place ctx = .ok made placed ∧
        constructAll rest { placed with address := advance placed.address made } = .ok more after ∧
        items = made ++ more := by
  rw [constructAll, bind_eq_ok, construct_of_isLeaf hleaf]
  simp only [constructLeaf_eq_ok, bind_eq_ok, pure_apply]
  grind

/-- What every leaf keeps, wherever the cursor is, a walk over leaves keeps. -/
theorem constructAll_keeps {P : Context → Prop} {l : List Statement} (hl : ∀ leaf ∈ l, leaf.IsLeaf)
    (hmove : ∀ (ctx : Context) (address : Word), P ctx → P { ctx with address := address })
    (hplace : ∀ leaf ∈ l, ∀ (ctx after : Context) (items : List Item),
      leaf.place ctx = .ok items after → P ctx → P after)
    {ctx after : Context} {items : List Item} (h : constructAll l ctx = .ok items after)
    (hctx : P ctx) : P after := by
  induction l generalizing ctx items with
  | nil =>
    cases h
    exact hctx
  | cons leaf rest ih =>
    obtain ⟨placed, made, more, hleaf, hrest, rfl⟩ :=
      (constructAll_cons_eq_ok (hl leaf List.mem_cons_self)).1 h
    have hplaced := hplace leaf List.mem_cons_self ctx placed made hleaf hctx
    exact ih (fun x hx => hl x (List.mem_cons_of_mem leaf hx))
      (fun x hx => hplace x (List.mem_cons_of_mem leaf hx)) hrest (hmove placed _ hplaced)

/-- A walk over leaves moves the cursor past its items. -/
theorem constructAll_advance {l : List Statement} (hl : ∀ leaf ∈ l, leaf.IsLeaf)
    {ctx after : Context} {items : List Item} (h : constructAll l ctx = .ok items after) :
    after.address = advance ctx.address items ∧ ctx.Extends after := by
  induction l generalizing ctx items with
  | nil =>
    cases h
    exact ⟨rfl, .refl _⟩
  | cons leaf rest ih =>
    obtain ⟨placed, made, more, hplace, hrest, rfl⟩ :=
      (constructAll_cons_eq_ok (hl leaf (by simp))).1 h
    obtain ⟨haddr, hext⟩ := ih (fun x hx => hl x (by simp [hx])) hrest
    constructor
    · rw [haddr, place_address hplace, advance_append]
    · -- the cursor moves in between, which `Extends` does not see
      have hhead := place_extends hplace
      exact ⟨hext.current.trans hhead.current, fun hf => hext.find? (hhead.find? hf)⟩

/-- A walk over leaves, cut before and after one of them. -/
theorem constructAll_split {l : List Statement} (hl : ∀ leaf ∈ l, leaf.IsLeaf)
    {ctx after : Context} {items : List Item} (h : constructAll l ctx = .ok items after)
    {j : Nat} {leaf : Statement} (hj : l[j]? = some leaf) :
    ∃ made mid own placed rest, constructAll (l.take j) ctx = .ok made mid ∧
      leaf.place mid = .ok own placed ∧
      constructAll (l.drop (j + 1)) { placed with address := advance placed.address own } =
        .ok rest after ∧
      items = made ++ own ++ rest := by
  induction l generalizing ctx items j with
  | nil => simp at hj
  | cons first l ih =>
    obtain ⟨placed, made, more, hplace, hrest, rfl⟩ :=
      (constructAll_cons_eq_ok (hl first (by simp))).1 h
    cases j with
    | zero =>
      simp only [List.getElem?_cons_zero, Option.some.injEq] at hj
      subst hj
      exact ⟨[], ctx, made, placed, more, rfl, hplace, by simpa using hrest, by simp⟩
    | succ j =>
      have hl' : ∀ leaf ∈ l, leaf.IsLeaf := fun x hx => hl x (by simp [hx])
      obtain ⟨made', mid, own, placed', rest, htake, hown, hdrop, rfl⟩ :=
        ih hl' hrest (by simpa using hj)
      refine ⟨made ++ made', mid, own, placed', rest, ?_, hown, by simpa using hdrop, by simp⟩
      rw [List.take_succ_cons, constructAll_cons_eq_ok (hl first (by simp))]
      exact ⟨placed, made, made', hplace, htake, rfl⟩

/-- Every item of a walk comes from one of its leaves. -/
theorem constructAll_getElem? {l : List Statement} (hl : ∀ leaf ∈ l, leaf.IsLeaf)
    {ctx after : Context} {items : List Item} (h : constructAll l ctx = .ok items after)
    {i : Nat} {item : Item} (hi : items[i]? = some item) :
    ∃ j leaf made mid own placed m, l[j]? = some leaf ∧
      constructAll (l.take j) ctx = .ok made mid ∧ leaf.place mid = .ok own placed ∧
      i = made.length + m ∧ own[m]? = some item := by
  induction l generalizing ctx items i with
  | nil =>
    cases h
    simp at hi
  | cons first l ih =>
    obtain ⟨placed, own, more, hplace, hrest, rfl⟩ :=
      (constructAll_cons_eq_ok (hl first (by simp))).1 h
    -- a later item is counted from behind the items of the first leaf
    by_cases hown : i < own.length
    · rw [List.getElem?_append_left hown] at hi
      exact ⟨0, first, [], ctx, own, placed, i, rfl, rfl, hplace, by simp, hi⟩
    · rw [List.getElem?_append_right (by omega)] at hi
      obtain ⟨j, leaf, made, mid, own', placed', m, hj, htake, hplace', hm, hitem⟩ :=
        ih (fun x hx => hl x (by simp [hx])) hrest hi
      refine ⟨j + 1, leaf, own ++ made, mid, own', placed', m, by simpa using hj, ?_, hplace', ?_,
        hitem⟩
      · rw [List.take_succ_cons, constructAll_cons_eq_ok (hl first (by simp))]
        exact ⟨placed, own, made, hplace, htake, rfl⟩
      · rw [List.length_append]
        omega

end Statement

/-! ## Sections -/

/-- A placed section stops where its items do. -/
def PlacedSection.IsFilled (p : PlacedSection) : Prop := p.stop = advance p.start p.items

namespace Section

/-- A section is laid out when it has a start, its leaves can be placed from there, and what they
make is zero where the section has no image. -/
theorem construct_eq_ok {s : Section} {id : SectionId} {stop : Word} {ctx after : Context}
    {p : PlacedSection} :
    s.construct id stop ctx = .ok p after ↔
      s.startAfter stop = .ok p.start ∧
        Statement.constructAll (Statement.allLeaves s.contents) (ctx.openSection id p.start).2 =
          .ok p.items after ∧
        p.stop = after.address ∧ (s.kind = .bss → ∀ item ∈ p.items, item.isZeroFill) := by
  unfold construct
  cases hstart : s.startAfter stop with
  | error e => simp
  | ok start =>
    rw [← Statement.constructAll_allLeaves]
    simp only [bind_eq_ok, modify_apply, EStateM.Result.ok.injEq]
    constructor
    · rintro ⟨_, u, ⟨-, rfl⟩, items, mid, hitems, h⟩
      split at h
      · cases h
      next hzero =>
        cases h
        exact ⟨rfl, hitems, rfl, by simpa using hzero⟩
    · rintro ⟨hsame, hitems, hstop, hzero⟩
      obtain ⟨start', stop', items⟩ := p
      cases hsame
      cases hstop
      refine ⟨⟨⟩, _, ⟨trivial, rfl⟩, items, after, hitems, ?_⟩
      rw [if_neg (by simpa using hzero)]
      rfl

theorem construct_ok {s : Section} {id : SectionId} {stop : Word} {ctx after : Context}
    {p : PlacedSection} (h : s.construct id stop ctx = .ok p after) :
    s.startAfter stop = .ok p.start ∧
      Statement.constructAll (Statement.allLeaves s.contents) (ctx.openSection id p.start).2 =
        .ok p.items after ∧
      p.stop = after.address := by
  obtain ⟨hstart, hitems, hstop, -⟩ := construct_eq_ok.1 h
  exact ⟨hstart, hitems, hstop⟩

theorem construct_isFilled {s : Section} {id : SectionId} {stop : Word} {ctx after : Context}
    {p : PlacedSection} (h : s.construct id stop ctx = .ok p after) : p.IsFilled := by
  obtain ⟨-, hitems, hstop⟩ := construct_ok h
  rw [PlacedSection.IsFilled, hstop]
  exact (Statement.constructAll_advance (Statement.isLeaf_of_mem_allLeaves _) hitems).1

/-- But for the name of its own start, laying a section out keeps every symbol. -/
theorem construct_find? {s : Section} {id : SectionId} {stop : Word} {ctx after : Context}
    {p : PlacedSection} (h : s.construct id stop ctx = .ok p after) {identifier : String}
    (hname : identifier ≠ Context.startName id) {symbol : Symbol}
    (hf : ctx.symbols.find? identifier = some symbol) :
    after.symbols.find? identifier = some symbol := by
  obtain ⟨-, hitems, -⟩ := construct_ok h
  have hext := (Statement.constructAll_advance (Statement.isLeaf_of_mem_allLeaves _) hitems).2
  apply hext.find?
  rw [← hf]
  exact SymbolTable.find?_insert_ne hname

end Section

namespace ObjectFile

/-- Where the sections stop, the last of them with its own stop, or `stop` without any. -/
def stopAfter (stop : Word) (placed : List PlacedSection) : Word :=
  (placed.getLast?.map PlacedSection.stop).getD stop

theorem stopAfter_cons (stop : Word) (p : PlacedSection) (placed : List PlacedSection) :
    stopAfter stop (p :: placed) = stopAfter p.stop placed := by
  cases placed with
  | nil => rfl
  | cons q placed => simp [stopAfter, List.getLast?_cons]

/-- The sections laid out before are only carried along. -/
theorem constructSections_placed (l : List Section) (id : SectionId) (stop : Word)
    (placed : List PlacedSection) (ctx : Context) :
    constructSections id stop placed ctx l =
      ((constructSections id stop [] ctx l).1, (constructSections id stop [] ctx l).2.1,
        placed ++ (constructSections id stop [] ctx l).2.2) := by
  induction l generalizing id stop placed ctx with
  | nil => simp [constructSections]
  | cons s l ih =>
    simp only [constructSections]
    cases s.construct id stop ctx with
    | error e ctx => simp
    | ok p ctx =>
      dsimp only
      -- either run goes on with the section in its list; the hypothesis takes it out
      rw [ih (id + 1) p.stop (placed ++ [p]), ih (id + 1) p.stop ([] ++ [p])]
      simp

/-- Sections are laid out if the first one is and the others are from where it stops. -/
theorem constructSections_cons_eq_ok {s : Section} {l : List Section} {id : SectionId} {stop : Word}
    {ctx after : Context} {placed : List PlacedSection} :
    constructSections id stop [] ctx (s :: l) = (.ok (), after, placed) ↔
      ∃ p next rest, s.construct id stop ctx = .ok p next ∧
        constructSections (id + 1) p.stop [] next l = (.ok (), after, rest) ∧
        placed = p :: rest := by
  rw [constructSections]
  cases hs : s.construct id stop ctx with
  | error e ctx => simp
  | ok p next =>
    dsimp only
    rw [constructSections_placed]
    constructor
    · intro h
      simp only [List.nil_append, Prod.mk.injEq] at h
      obtain ⟨hresult, hctx, rfl⟩ := h
      refine ⟨p, next, (constructSections (id + 1) p.stop [] next l).2.2, rfl, ?_, rfl⟩
      rw [← hresult, ← hctx]
    · rintro ⟨p', next', rest, hp, hrest, rfl⟩
      cases hp
      rw [hrest]
      rfl

/-- The run over sections, cut before and after one of them. -/
theorem constructSections_split {l : List Section} {id : Nat} {stop : Word}
    {ctx after : Context} {placed : List PlacedSection}
    (h : constructSections id stop [] ctx l = (.ok (), after, placed))
    {k : Nat} {s : Section} (hk : l[k]? = some s) :
    ∃ before mid p next rest,
      constructSections id stop [] ctx (l.take k) = (.ok (), mid, before) ∧ before.length = k ∧
      s.construct (id + k) (stopAfter stop before) mid = .ok p next ∧
      constructSections (id + k + 1) p.stop [] next (l.drop (k + 1)) = (.ok (), after, rest) ∧
      placed = before ++ p :: rest := by
  induction l generalizing id stop ctx placed k with
  | nil => simp at hk
  | cons first l ih =>
    obtain ⟨p, next, rest, hp, hrest, rfl⟩ := constructSections_cons_eq_ok.1 h
    cases k with
    | zero =>
      simp only [List.getElem?_cons_zero, Option.some.injEq] at hk
      subst hk
      exact ⟨[], ctx, p, next, rest, rfl, rfl, hp, by simpa using hrest, rfl⟩
    | succ k =>
      obtain ⟨before, mid, q, next', rest', htake, hlen, hq, hdrop, rfl⟩ :=
        ih hrest (by simpa using hk)
      refine ⟨p :: before, mid, q, next', rest', ?_, by simp [hlen], ?_, ?_, rfl⟩
      · rw [List.take_succ_cons, constructSections_cons_eq_ok]
        exact ⟨p, next, before, hp, htake, rfl⟩
      · rw [stopAfter_cons, show id + (k + 1) = id + 1 + k by omega]
        exact hq
      · rw [show id + (k + 1) + 1 = id + 1 + k + 1 by omega]
        simpa using hdrop

/-- Wherever laying sections out stops, the places are filled, and there are as many as sections
that did not fail. -/
theorem constructSections_filled (l : List Section) (id : SectionId) (stop : Word) (ctx : Context) :
    let pass := constructSections id stop [] ctx l
    pass.2.2.length ≤ l.length ∧ (pass.1 = .ok () → pass.2.2.length = l.length) ∧
      ∀ p ∈ pass.2.2, p.IsFilled := by
  induction l generalizing id stop ctx with
  | nil => exact ⟨Nat.le_refl _, fun _ => rfl, nofun⟩
  | cons s l ih =>
    rw [constructSections]
    cases hs : s.construct id stop ctx with
    | error e next => exact ⟨Nat.zero_le _, nofun, nofun⟩
    | ok p next =>
      obtain ⟨hle, hall, hfilled⟩ := ih (id + 1) p.stop next
      dsimp only
      rw [constructSections_placed]
      refine ⟨Nat.succ_le_succ hle, fun hok => congrArg (· + 1) (hall hok), ?_⟩
      intro q hq
      rcases List.mem_cons.1 hq with rfl | hq
      · exact Section.construct_isFilled hs
      · exact hfilled q hq

theorem constructSections_isFilled {l : List Section} {id : SectionId} {stop : Word}
    {ctx after : Context} {placed : List PlacedSection}
    (h : constructSections id stop [] ctx l = (.ok (), after, placed)) :
    placed.length = l.length ∧ ∀ p ∈ placed, p.IsFilled := by
  obtain ⟨-, hall, hfilled⟩ := constructSections_filled l id stop ctx
  rw [h] at hall hfilled
  exact ⟨hall rfl, hfilled⟩

/-- But for the names of their starts, laying sections out keeps every symbol. -/
theorem constructSections_find? {l : List Section} {id : Nat} {stop : Word}
    {ctx after : Context} {placed : List PlacedSection}
    (h : constructSections id stop [] ctx l = (.ok (), after, placed)) {identifier : String}
    (hname : ∀ n, id ≤ n → n < id + l.length → identifier ≠ Context.startName n) {symbol : Symbol}
    (hf : ctx.symbols.find? identifier = some symbol) :
    after.symbols.find? identifier = some symbol := by
  induction l generalizing id stop ctx placed with
  | nil =>
    cases h
    exact hf
  | cons s l ih =>
    obtain ⟨p, next, rest, hp, hrest, rfl⟩ := constructSections_cons_eq_ok.1 h
    rw [List.length_cons] at hname
    refine ih hrest (fun n hle hlt => hname n (by omega) (by omega)) ?_
    exact Section.construct_find? hp (hname id (Nat.le_refl id) (by omega)) hf

theorem construct_of_ne_fresh {obj : ObjectFile} (h : obj.stage ≠ .fresh) :
    obj.construct = (.error (.wrongStage .construct obj.stage), obj) := by
  unfold construct
  rw [if_pos h]

/-- In its turn, the first pass does not look at what an earlier one left. -/
theorem construct_of_fresh {obj : ObjectFile} (h : obj.stage = .fresh) :
    obj.construct =
      let pass := constructSections 0 0 [] (.new obj.context.mode) obj.sections
      (pass.1, { obj with
        context := pass.2.1, placed := pass.2.2,
        stage := if pass.1.isOk then .constructed else .fresh }) := by
  unfold construct
  rw [if_neg (by simp [h])]

/-- A first pass that fails in its turn can be tried again. -/
theorem stage_construct_of_error {obj : ObjectFile} (hfresh : obj.stage = .fresh)
    {e : AssemblyError} (h : obj.construct.1 = .error e) : obj.construct.2.stage = .fresh := by
  rw [construct_of_fresh hfresh] at h ⊢
  dsimp only at h ⊢
  rw [h]
  rfl

/-- A first pass that succeeds ran over all sections from empty tables. -/
theorem construct_ok {obj built : ObjectFile} (h : obj.construct = (.ok (), built)) :
    constructSections 0 0 [] (.new obj.context.mode) obj.sections =
        (.ok (), built.context, built.placed) ∧
      built.sections = obj.sections ∧ built.stage = .constructed ∧
      built.container = obj.container := by
  unfold construct at h
  split at h
  · cases h
  · rcases hrun : constructSections 0 0 [] (.new obj.context.mode) obj.sections with
      ⟨result, ctx, placed⟩
    simp only [hrun, Prod.mk.injEq] at h
    obtain ⟨rfl, rfl⟩ := h
    exact ⟨rfl, rfl, rfl, rfl⟩

end ObjectFile

/-! ## What the first pass never touches -/

/-- Two contexts with the same mode, file and relocations. -/
structure Context.Frames (ctx after : Context) : Prop where
  mode : after.mode = ctx.mode
  file : after.file = ctx.file
  relocations : after.relocations = ctx.relocations

theorem Context.Frames.trans {a b c : Context} (hab : a.Frames b) (hbc : b.Frames c) : a.Frames c :=
  ⟨hbc.mode.trans hab.mode, hbc.file.trans hab.file, hbc.relocations.trans hab.relocations⟩

namespace Construct

/-- A step keeps mode, file and relocations, also if it fails. -/
def Framed {α : Type} (m : Construct α) : Prop :=
  ∀ ctx : Context, ctx.Frames (stateAfter m ctx)

variable {α β : Type}

theorem framed_pure (a : α) : Framed (pure a) := fun _ => ⟨rfl, rfl, rfl⟩

theorem framed_throw (e : AssemblyError) : Framed (throw e : Construct α) :=
  fun _ => ⟨rfl, rfl, rfl⟩

/-- Steps keep mode, file and relocations together, also if the second fails. -/
theorem Framed.bind {m : Construct α} {f : α → Construct β} (hm : Framed m)
    (hf : ∀ a, Framed (f a)) : Framed (m >>= f) := by
  intro ctx
  have hfirst := hm ctx
  cases h : m ctx with
  | error e next =>
    rw [stateAfter_of_error h] at hfirst
    rwa [stateAfter_bind_of_error h]
  | ok a next =>
    rw [stateAfter_of_ok h] at hfirst
    rw [stateAfter_bind_of_ok h]
    exact hfirst.trans (hf a next)

end Construct

section Framed

open Construct

theorem Statement.framed_constructLeaf (leaf : Statement) : Framed leaf.constructLeaf := by
  intro ctx
  cases h : leaf.constructLeaf ctx with
  | error e after =>
    obtain ⟨-, rfl⟩ := constructLeaf_eq_error.1 h
    rw [stateAfter_of_error h]
    exact ⟨rfl, rfl, rfl⟩
  | ok items after =>
    obtain ⟨placed, hplace, rfl⟩ := constructLeaf_eq_ok.1 h
    rw [stateAfter_of_ok h]
    rcases place_cases hplace with rfl | ⟨s, -, rfl⟩ <;> exact ⟨rfl, rfl, rfl⟩

theorem Statement.framed_constructAll {l : List Statement} (hl : ∀ leaf ∈ l, leaf.IsLeaf) :
    Framed (constructAll l) := by
  induction l with
  | nil => exact framed_pure []
  | cons leaf rest ih =>
    rw [constructAll, construct_of_isLeaf (hl leaf List.mem_cons_self)]
    refine leaf.framed_constructLeaf.bind fun items => ?_
    exact (ih fun x hx => hl x (List.mem_cons_of_mem leaf hx)).bind fun more => framed_pure _

/-- A section is laid out in the mode and the file of the pass, and lists no relocation. -/
theorem Section.framed_construct (s : Section) (id : SectionId) (stop : Word) :
    Framed (s.construct id stop) := by
  unfold construct
  cases s.startAfter stop with
  | error e => exact framed_throw _
  | ok start =>
    have hleaves := Statement.isLeaf_of_mem_allLeaves s.contents
    have hget : Framed (get : Construct Context) := fun _ => ⟨rfl, rfl, rfl⟩
    refine Framed.bind (fun _ => ⟨rfl, rfl, rfl⟩) fun _ => ?_
    rw [Statement.constructAll_allLeaves]
    refine (Statement.framed_constructAll hleaves).bind fun items => ?_
    dsimp only
    split
    · exact (framed_throw _).bind fun _ => hget.bind fun _ => framed_pure _
    · exact hget.bind fun _ => framed_pure _

/-- The first pass keeps mode, file and relocations, wherever it stops. -/
theorem ObjectFile.constructSections_frames (l : List Section) (id : SectionId) (stop : Word)
    (placed : List PlacedSection) (ctx : Context) :
    ctx.Frames (constructSections id stop placed ctx l).2.1 := by
  induction l generalizing id stop placed ctx with
  | nil => exact ⟨rfl, rfl, rfl⟩
  | cons s l ih =>
    have hs := s.framed_construct id stop ctx
    rw [constructSections]
    cases h : s.construct id stop ctx with
    | error e next => rwa [stateAfter_of_error h] at hs
    | ok p next =>
      rw [stateAfter_of_ok h] at hs
      exact hs.trans (ih _ _ _ _)

end Framed

end Assembler
