import Assembler.Proofs.FirstPass
import Assembler.Proofs.Linking

/-!
# Sections and imports that move

The addresses of sections and imports are for others to choose. `Context.moved` is a context in
which every section and every import was put somewhere else, and the cursor moved with its section.

An expression that evaluates to a number is worth the same wherever things are put, and an address
moves as far as the symbol that it is relative to (`Expr.eval_moved`). What makes this work is that
no operator lets an address pass for a number: it keeps the anchor, refuses, or takes the distance
of two addresses that move alike. Main statement: `Expr.eval_respects_movement`.
-/

namespace Assembler

/-- How far each section moves, and each import. -/
structure Movement where
  ofSection : SectionId → Word
  ofImport : String → Word

namespace Symbol

/-- How far a symbol moves: with its section, or as an import of its name. A number stays. -/
def shift (m : Movement) (s : Symbol) : Word :=
  if s.isAbsolute then 0
  else match s.home with
    | some k => m.ofSection k
    | none => m.ofImport s.identifier

/-- The symbol after a movement. -/
def moved (m : Movement) (s : Symbol) : Symbol := { s with value := s.value + s.shift m }

variable {m : Movement} {s : Symbol}

theorem shift_of_isAbsolute (h : s.isAbsolute) : s.shift m = 0 := if_pos h

theorem shift_of_home {k : SectionId} (h : s.isAbsolute = false) (hhome : s.home = some k) :
    s.shift m = m.ofSection k := by
  simp [shift, h, hhome]

end Symbol

namespace SymbolTable

/-- The table after a movement. -/
def moved (m : Movement) (t : SymbolTable) : SymbolTable := ⟨t.symbols.map (Symbol.moved m)⟩

/-- How far a value with this anchor moves. -/
def shiftOf (t : SymbolTable) (m : Movement) : Option Anchor → Word
  | some (.symbol id) => ((t.get? id).map (Symbol.shift m)).getD 0
  | some (.unresolved _) => 0
  | none => 0

variable (t : SymbolTable) (m : Movement)

@[simp]
theorem get?_moved (id : SymbolId) : (t.moved m).get? id = (t.get? id).map (Symbol.moved m) :=
  List.getElem?_map

@[simp]
theorem idOf?_moved (identifier : String) : (t.moved m).idOf? identifier = t.idOf? identifier := by
  unfold idOf? moved
  rw [List.findIdx?_map]
  rfl

@[simp]
theorem find?_moved (identifier : String) :
    (t.moved m).find? identifier = (t.find? identifier).map (Symbol.moved m) := by
  unfold find?
  rw [idOf?_moved]
  cases t.idOf? identifier with
  | none => rfl
  | some id => exact get?_moved t m id

@[simp]
theorem nameOf_moved (id : SymbolId) : (t.moved m).nameOf id = t.nameOf id := by
  unfold nameOf
  rw [get?_moved]
  cases t.get? id <;> rfl

end SymbolTable

namespace Value

variable (t : SymbolTable) (m : Movement)

/-- The value after a movement. -/
def moved (v : Value) : Value := ⟨v.constant + t.shiftOf m v.anchor, v.anchor⟩

variable {t m}

theorem moved_of_none {v : Value} (h : v.anchor = none) : v.moved t m = v := by
  obtain ⟨constant, anchor⟩ := v
  subst h
  simp [moved, SymbolTable.shiftOf]

/-- A value that moves with a symbol moves with one that is no number. -/
def IsAnchored (t : SymbolTable) (v : Value) : Prop :=
  ∀ id, v.anchor = some (.symbol id) → ∃ s, t.get? id = some s ∧ s.isAbsolute = false

@[simp]
theorem isPlaced_moved (t : SymbolTable) (m : Movement) (id : SymbolId) :
    isPlaced (t.moved m) id = isPlaced t id := by
  unfold isPlaced
  rw [SymbolTable.get?_moved]
  cases t.get? id <;> rfl

@[simp]
theorem homeOf?_moved (t : SymbolTable) (m : Movement) (id : SymbolId) :
    homeOf? (t.moved m) id = homeOf? t id := by
  unfold homeOf?
  rw [SymbolTable.get?_moved]
  cases t.get? id <;> rfl

theorem distance_moved (t : SymbolTable) (m : Movement) (constant : Word) (a b : SymbolId) :
    distance (t.moved m) constant a b = distance t constant a b := by
  unfold distance
  simp

/-! ## Operators -/

theorem unary_moved (op : UnaryOp) (v : Value) :
    (v.moved t m).unary op = (v.unary op).map (moved t m) := by
  unfold unary
  cases hanchor : v.anchor with
  | none => simp [moved, hanchor, SymbolTable.shiftOf, Except.map]
  | some anchor =>
    cases hop : op.keepsAnchor with
    | false => simp [moved, hanchor, Except.map]
    | true => simp [moved, hanchor, Except.map, UnaryOp.compute_add hop]

/-- The sum of moved values is the moved sum, and fails where the sum does. -/
theorem add_moved (l r : Value) :
    (l.moved t m).add (r.moved t m) = (l.add r).map (moved t m) := by
  unfold add
  cases hl : l.anchor with
  | none =>
    rw [moved_of_none hl]
    simp [moved, hl, Except.map, BitVec.add_assoc]
  | some left =>
    cases hr : r.anchor with
    | none =>
      rw [moved_of_none hr]
      simp [moved, hl, hr, Except.map, add_right_comm l.constant _ r.constant]
    | some right => simp [moved, hl, hr, Except.map]

/-- Addresses that have a distance are of one section, and move alike. -/
theorem distance_eq_ok {constant : Word} {a b : SymbolId} {w : Value}
    (h : distance t constant a b = .ok w) :
    w = .absolute constant ∧ ∃ k, homeOf? t a = some k ∧ homeOf? t b = some k := by
  unfold distance at h
  split at h
  · cases h
  · split at h
    · cases h
    · split at h
      next j k ha hb =>
        split at h
        next hsame =>
          cases h
          exact ⟨rfl, k, by rw [ha, hsame], hb⟩
        · cases h
      · cases h

/-- What refuses a distance does not look at the number. -/
theorem distance_error {constant : Word} {a b : SymbolId} {e : EvalError}
    (h : distance t constant a b = .error e) (other : Word) : distance t other a b = .error e := by
  unfold distance at h ⊢
  grind

theorem shiftOf_of_home {id : SymbolId} {k : SectionId}
    (hanchored : ∃ s, t.get? id = some s ∧ s.isAbsolute = false) (hhome : homeOf? t id = some k) :
    t.shiftOf m (some (.symbol id)) = m.ofSection k := by
  obtain ⟨s, hs, hmoves⟩ := hanchored
  rw [homeOf?, hs] at hhome
  rw [SymbolTable.shiftOf, hs]
  exact Symbol.shift_of_home hmoves hhome

/-- A distance is worth the same after a movement. -/
theorem sub_moved {l r : Value} (hl : l.IsAnchored t) (hr : r.IsAnchored t) :
    (l.moved t m).sub (t.moved m) (r.moved t m) = (l.sub t r).map (moved t m) := by
  cases hright : r.anchor with
  | none =>
    rw [moved_of_none hright]
    cases hleft : l.anchor with
    | none =>
      rw [moved_of_none hleft]
      simp [sub, hleft, hright, Except.map, moved_of_none (v := absolute _) rfl]
    | some anchor =>
      simp [sub, moved, hleft, hright, Except.map, relative, BitVec.sub_eq_add_neg,
        add_right_comm l.constant _ (-r.constant)]
  | some right =>
    cases hleft : l.anchor with
    | none => simp [sub, moved, hleft, hright, Except.map]
    | some left =>
      cases left with
      | unresolved identifier => simp [sub, moved, hleft, hright, Except.map]
      | symbol a =>
        cases right with
        | unresolved identifier => simp [sub, moved, hleft, hright, Except.map]
        | symbol b =>
          simp only [sub, moved, hleft, hright, distance_moved]
          cases hdistance : distance t (l.constant - r.constant) a b with
          | error e =>
            rw [distance_error hdistance]
            rfl
          | ok w =>
            obtain ⟨rfl, k, ha, hb⟩ := distance_eq_ok hdistance
            have hconstant : l.constant + t.shiftOf m (some (.symbol a)) -
                (r.constant + t.shiftOf m (some (.symbol b))) = l.constant - r.constant := by
              rw [shiftOf_of_home (hl a hleft) ha, shiftOf_of_home (hr b hright) hb]
              grind
            rw [hconstant, hdistance]
            simp [Except.map, moved_of_none (v := absolute _) rfl]

/-- Every operator on two values respects a movement: it fails where it failed, and its result
moves. -/
theorem binary_moved (op : BinaryOp) {l r : Value} (hl : l.IsAnchored t) (hr : r.IsAnchored t) :
    binary (t.moved m) op (l.moved t m) (r.moved t m) = (binary t op l r).map (moved t m) := by
  unfold binary
  split
  · exact add_moved l r
  · exact sub_moved hl hr
  · cases hleft : l.anchor with
    | some left => simp [moved, hleft, Except.map]
    | none =>
      cases hright : r.anchor with
      | some right => simp [moved, hleft, hright, Except.map]
      | none =>
        rw [moved_of_none hleft, moved_of_none hright]
        simp only [hleft, hright, Option.isSome_none, Bool.or_self, Bool.false_eq_true, ↓reduceIte]
        cases op.compute? l.constant r.constant with
        | none => rfl
        | some v => simp [Except.map, moved_of_none (v := absolute v) rfl]

end Value

/-! ## Contexts -/

namespace Context

/-- The current section, if there is one, has its start symbol, which is an address of it. -/
def HasStart (ctx : Context) : Prop :=
  ∀ k, ctx.current = some k →
    ∃ s, ctx.symbols.find? (startName k) = some s ∧ s.isAbsolute = false ∧ s.home = some k

/-- The context after a movement: the cursor goes with its section. -/
def moved (m : Movement) (ctx : Context) : Context :=
  { ctx with
    address := ctx.address + (ctx.current.map m.ofSection).getD 0
    symbols := ctx.symbols.moved m }

variable {ctx : Context} {m : Movement}

@[simp]
theorem startSymbol?_moved : (ctx.moved m).startSymbol? = ctx.startSymbol? := by
  simp [startSymbol?, moved]

/-- Where there is a start symbol, it is found, and moves with the section. -/
theorem HasStart.startSymbol? (h : ctx.HasStart) {k : SectionId} (hcurrent : ctx.current = some k) :
    ∃ id s, ctx.startSymbol? = some id ∧ ctx.symbols.get? id = some s ∧ s.isAbsolute = false ∧
      s.home = some k := by
  obtain ⟨s, hs, hmoves, hhome⟩ := h k hcurrent
  obtain ⟨id, hid, hget⟩ := Option.bind_eq_some_iff.1 hs
  refine ⟨id, s, ?_, hget, hmoves, hhome⟩
  rw [Context.startSymbol?, hcurrent]
  exact hid

theorem startSymbol?_of_none (h : ctx.current = none) : ctx.startSymbol? = none := by
  simp [Context.startSymbol?, h]

/-- An address of the current section moves with it. -/
theorem inSection_moved (h : ctx.HasStart) (address : Word) :
    (ctx.moved m).inSection (address + (ctx.current.map m.ofSection).getD 0) =
      (ctx.inSection address).moved ctx.symbols m := by
  unfold inSection Value.moved
  rw [startSymbol?_moved]
  cases hcurrent : ctx.current with
  | none => simp [startSymbol?_of_none hcurrent, SymbolTable.shiftOf]
  | some k =>
    obtain ⟨id, s, hstart, hs, hmoves, hhome⟩ := h.startSymbol? hcurrent
    simp [hstart, SymbolTable.shiftOf, hs, Symbol.shift_of_home hmoves hhome]

theorem sectionStart_moved (h : ctx.HasStart) :
    (ctx.moved m).sectionStart = ctx.sectionStart + (ctx.current.map m.ofSection).getD 0 := by
  unfold sectionStart
  rw [startSymbol?_moved]
  cases hcurrent : ctx.current with
  | none => simp [startSymbol?_of_none hcurrent]
  | some k =>
    obtain ⟨id, s, hstart, hs, hmoves, hhome⟩ := h.startSymbol? hcurrent
    simp [hstart, moved, hs, Symbol.moved, Symbol.shift_of_home hmoves hhome]

/-- The value of an identifier moves with its symbol. -/
theorem valueOf_moved (identifier : String) :
    (ctx.moved m).valueOf identifier = (ctx.valueOf identifier).moved ctx.symbols m := by
  unfold valueOf
  simp only [moved, SymbolTable.idOf?_moved, SymbolTable.get?_moved]
  cases ctx.symbols.idOf? identifier with
  | none => simp [Value.moved, Value.relative, SymbolTable.shiftOf]
  | some id =>
    dsimp only
    cases hs : ctx.symbols.get? id with
    | none => simp [Value.moved, Value.relative, SymbolTable.shiftOf]
    | some s =>
      cases habsolute : s.isAbsolute with
      | true =>
        simp [Symbol.moved, habsolute, Symbol.shift_of_isAbsolute habsolute,
          Value.moved_of_none (v := .absolute s.value) rfl]
      | false =>
        simp [Symbol.moved, habsolute, Value.moved, Value.relative, SymbolTable.shiftOf, hs]

theorem isAnchored_inSection (h : ctx.HasStart) (address : Word) :
    (ctx.inSection address).IsAnchored ctx.symbols := by
  intro id hid
  cases hcurrent : ctx.current with
  | none => simp [inSection, startSymbol?_of_none hcurrent] at hid
  | some k =>
    obtain ⟨start, s, hstart, hs, hmoves, -⟩ := h.startSymbol? hcurrent
    obtain rfl : start = id := by simpa [inSection, hstart] using hid
    exact ⟨s, hs, hmoves⟩

/-- The value of an identifier moves with a symbol that is no number. -/
theorem isAnchored_valueOf (identifier : String) :
    (ctx.valueOf identifier).IsAnchored ctx.symbols := by
  intro id hid
  unfold valueOf at hid
  split at hid
  · cases hid
  · split at hid
    · cases hid
    next s hs =>
      split at hid
      · cases hid
      next hmoves =>
        cases hid
        exact ⟨s, hs, by simpa using hmoves⟩

end Context

namespace Expr

variable {e : Expr} {ctx : Context}

/-- A value that an expression has is an address of something that moves, or a number. -/
theorem eval_isAnchored (he : e.IsFunctionFree) (h : ctx.HasStart) {v : Value}
    (hv : e.eval ctx = .ok v) : v.IsAnchored ctx.symbols := by
  induction e generalizing v with
  | constant c =>
    cases hv
    exact fun id hid => nomatch hid
  | position =>
    cases hv
    exact Context.isAnchored_inSection h _
  | sectionStart =>
    cases hv
    exact Context.isAnchored_inSection h _
  | reference identifier =>
    cases hv
    exact Context.isAnchored_valueOf identifier
  | unary op e ih =>
    obtain ⟨w, hw, hv⟩ := exceptBind_eq_ok.1 hv
    unfold Value.unary at hv
    split at hv
    · cases hv
    · cases hv
      exact fun id hid => ih he hw id hid
  | binary op l r ihl ihr =>
    obtain ⟨w, hw, hv⟩ := exceptBind_eq_ok.1 hv
    obtain ⟨u, hu, hv⟩ := exceptBind_eq_ok.1 hv
    intro id hid
    rcases Value.binary_anchor hv with hnone | hleft | hright
    · rw [hnone] at hid
      cases hid
    · exact ihl he.1 hw id (by rw [← hleft, hid])
    · exact ihr he.2 hu id (by rw [← hright, hid])
  | function name value => cases he

/-- After a movement an expression has the value that it had, moved, or the same error. -/
theorem eval_moved (he : e.IsFunctionFree) (h : ctx.HasStart) (m : Movement) :
    e.eval (ctx.moved m) = (e.eval ctx).map (Value.moved ctx.symbols m) := by
  induction e with
  | constant c => exact congrArg Except.ok (Value.moved_of_none rfl).symm
  | position => exact congrArg Except.ok (Context.inSection_moved h ctx.address)
  | sectionStart =>
    rw [eval, Context.sectionStart_moved h, Context.inSection_moved h]
    rfl
  | reference identifier => exact congrArg Except.ok (Context.valueOf_moved identifier)
  | unary op e ih =>
    rw [eval, eval, ih he]
    cases e.eval ctx with
    | error err => rfl
    | ok v => exact Value.unary_moved op v
  | binary op l r ihl ihr =>
    rw [eval, eval, ihl he.1, ihr he.2]
    cases hl : l.eval ctx with
    | error err => rfl
    | ok v =>
      cases hr : r.eval ctx with
      | error err => rfl
      | ok w => exact Value.binary_moved op (eval_isAnchored he.1 h hl) (eval_isAnchored he.2 h hr)
  | function name value => cases he

/-- Sections and imports move, each as far as it likes, and the cursor moves with its section. Then
an expression fails as it failed, or it has a value with the same anchor: one that moves with a
symbol has moved as far as the symbol, and every other is the same number. -/
theorem eval_respects_movement (he : e.IsFunctionFree) (h : ctx.HasStart) (m : Movement) :
    (∀ err, e.eval (ctx.moved m) = .error err ↔ e.eval ctx = .error err) ∧
    (∀ v, e.eval ctx = .ok v → ∃ w, e.eval (ctx.moved m) = .ok w ∧ w.anchor = v.anchor ∧
      (∀ id, v.anchor = some (.symbol id) →
        ∃ s, ctx.symbols.get? id = some s ∧ w.constant = v.constant + s.shift m) ∧
      ((∀ id, v.anchor ≠ some (.symbol id)) → w = v)) := by
  rw [eval_moved he h m]
  constructor
  · intro err
    cases e.eval ctx <;> simp [Except.map]
  · intro v hv
    refine ⟨v.moved ctx.symbols m, by rw [hv]; rfl, rfl, fun id hid => ?_, fun hother => ?_⟩
    · obtain ⟨s, hs, -⟩ := eval_isAnchored he h hv id hid
      exact ⟨s, hs, by simp [Value.moved, hid, SymbolTable.shiftOf, hs]⟩
    · obtain ⟨constant, anchor⟩ := v
      match anchor with
      | none => exact Value.moved_of_none rfl
      | some (.unresolved identifier) => simp [Value.moved, SymbolTable.shiftOf]
      | some (.symbol id) => exact absurd rfl (hother id)

/-- A section at `0x100` with a label in it, and an import. -/
def labelAndImport : Context :=
  let ctx := ((Context.new .bit64).openSection 0 0x100).2
  let ctx := ctx.withSymbol { Symbol.declare "here" .internal with home := some 0, value := 0x108 }
  ctx.withSymbol (.declare "puts" .imported)

/-- An address as far behind the import as the label is behind the start of its section. -/
def labelBehindImport : Expr :=
  .binary .add (.reference "puts") (.binary .sub (.reference "here") .sectionStart)

/-- The address moves as far as the import, and not with the label. -/
theorem eval_respects_movement_labelBehindImport :
    labelAndImport.HasStart ∧
      labelBehindImport.eval labelAndImport = .ok ⟨8, some (.symbol 2)⟩ ∧
      labelBehindImport.eval (labelAndImport.moved ⟨fun _ => 0x1000, fun _ => 0x40⟩) =
        .ok ⟨0x48, some (.symbol 2)⟩ := by
  have hstart : labelAndImport.HasStart := by
    rintro k ⟨⟩
    exact ⟨_, by rfl, by rfl, by rfl⟩
  have hfree : labelBehindImport.IsFunctionFree := ⟨trivial, trivial, trivial⟩
  have hvalue : labelBehindImport.eval labelAndImport = .ok ⟨8, some (.symbol 2)⟩ :=
    eq_ok_of_toOption (by decide +kernel)
  obtain ⟨w, hw, hanchor, hmoved, -⟩ :=
    (eval_respects_movement hfree hstart ⟨fun _ => 0x1000, fun _ => 0x40⟩).2 _ hvalue
  obtain ⟨s, hs, hconstant⟩ := hmoved 2 rfl
  refine ⟨hstart, hvalue, ?_⟩
  cases hs
  rw [hw]
  obtain ⟨constant, anchor⟩ := w
  cases hanchor
  cases hconstant
  rfl

end Expr

end Assembler
