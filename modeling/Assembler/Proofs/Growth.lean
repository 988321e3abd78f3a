import Assembler.Expr.Eval
import Assembler.Proofs.Passes
import Assembler.Proofs.SymbolTable

/-!
# Evaluation in a table that grows

A table grows behind the symbols that it has, so that these keep their ids, and an expression keeps
its value if nothing that it refers to is new (`Expr.eval_of_growsInto`). An unresolved identifier
is never lost on the way to a result (`Expr.anchor_of_mem_references`), so that a number, or an
address that moves with a symbol of the table, has none in any part of its expression.

Main statement: `Expr.eval_stable`.
-/

namespace Assembler

namespace SymbolTable

/-- The second table has the symbols of the first under the same ids, and others behind them. -/
def IsPrefix (t u : SymbolTable) : Prop := t.symbols <+: u.symbols

variable {t u v : SymbolTable} {identifier : String} {id : SymbolId}

theorem IsPrefix.refl (t : SymbolTable) : t.IsPrefix t := List.prefix_refl _

theorem IsPrefix.trans (htu : t.IsPrefix u) (huv : u.IsPrefix v) : t.IsPrefix v :=
  List.IsPrefix.trans htu huv

theorem IsPrefix.get? (h : t.IsPrefix u) {s : Symbol} (hs : t.get? id = some s) :
    u.get? id = some s := by
  obtain ⟨more, hu⟩ := h
  rw [SymbolTable.get?, ← hu, List.getElem?_append_left (List.getElem?_eq_some_iff.1 hs).1]
  exact hs

theorem IsPrefix.idOf? (h : t.IsPrefix u) (hid : t.idOf? identifier = some id) :
    u.idOf? identifier = some id := by
  obtain ⟨more, hu⟩ := h
  rw [SymbolTable.idOf?] at hid ⊢
  rw [← hu, List.findIdx?_append, hid]
  rfl

theorem IsPrefix.find? (h : t.IsPrefix u) {s : Symbol} (hs : t.find? identifier = some s) :
    u.find? identifier = some s := by
  obtain ⟨id, hid, hget⟩ := Option.bind_eq_some_iff.1 hs
  exact Option.bind_eq_some_iff.2 ⟨id, h.idOf? hid, h.get? hget⟩

/-- A symbol under a free identifier comes behind the others. -/
theorem isPrefix_insert {s : Symbol} (h : t.idOf? s.identifier = none) :
    t.IsPrefix (t.insert s).2 := by
  rw [insert_of_none h]
  exact List.prefix_append _ _

end SymbolTable

/-! ## Operators -/

namespace Value

variable {t u : SymbolTable}

theorem unary_anchor {op : UnaryOp} {v w : Value} (h : v.unary op = .ok w) :
    w.anchor = v.anchor := by
  unfold unary at h
  split at h
  · cases h
  · cases h
    rfl

/-- An operand that waits for an identifier makes the result wait for it. -/
theorem binary_unresolved {op : BinaryOp} {l r w : Value} (h : binary t op l r = .ok w)
    {name : String}
    (hname : l.anchor = some (.unresolved name) ∨ r.anchor = some (.unresolved name)) :
    w.anchor = some (.unresolved name) := by
  unfold binary at h
  split at h
  · -- of two operands that move a sum is refused
    unfold add at h
    split at h
    · cases h
    next hmoves =>
      cases h
      rcases hname with hl | hr
      · simp [hl]
      · have hl : l.anchor = none := by simpa [hr] using hmoves
        simp [hl, hr]
  · unfold sub at h
    dsimp only at h
    split at h
    next hl hr => simp [hl, hr] at hname
    next hl hr =>
      cases h
      simpa [hl, hr, relative] using hname
    · cases h
    · cases h
    · cases h
    next hl hr => simp [hl, hr] at hname
  · split at h
    · cases h
    next hmoves =>
      obtain ⟨hl, hr⟩ : l.anchor = none ∧ r.anchor = none := by simpa using hmoves
      simp [hl, hr] at hname

/-- Addresses that have a distance keep it when the table grows. -/
theorem distance_of_isPrefix (h : t.IsPrefix u) {constant : Word} {a b : SymbolId} {w : Value}
    (hw : distance t constant a b = .ok w) :
    distance u constant a b = .ok w ∧ w.anchor = none := by
  have hplaced {id : SymbolId} (hid : isPlaced t id) :
      isPlaced u id ∧ homeOf? u id = homeOf? t id := by
    unfold isPlaced homeOf? at *
    cases hs : t.get? id with
    | none => simp [hs] at hid
    | some s => simpa [hs, h.get? hs] using hid
  unfold distance at hw ⊢
  split at hw
  · cases hw
  next ha =>
    split at hw
    · cases hw
    next hb =>
      obtain ⟨ha', hhomeA⟩ := hplaced (by simpa using ha)
      obtain ⟨hb', hhomeB⟩ := hplaced (by simpa using hb)
      simp only [ha', hb', hhomeA, hhomeB]
      split at hw
      · split at hw
        next hsame =>
          cases hw
          simp [hsame, absolute]
        · cases hw
      · cases hw

/-- An operator that has a result has the same when the table grows. -/
theorem binary_of_isPrefix (h : t.IsPrefix u) {op : BinaryOp} {l r w : Value}
    (hw : binary t op l r = .ok w) : binary u op l r = .ok w := by
  cases op with
  | sub =>
    -- a distance is all that looks at the table
    unfold binary sub at hw ⊢
    dsimp only at hw ⊢
    split at hw
    case h_6 => exact (distance_of_isPrefix h hw).1
    all_goals exact hw
  | _ => exact hw

end Value

/-! ## Contexts -/

/-- The second context stands where the first does, and its table goes on from that of the first.
The first has the start of the section that it is in. -/
structure Context.GrowsInto (ctx later : Context) : Prop where
  address : later.address = ctx.address
  current : later.current = ctx.current
  symbols : ctx.symbols.IsPrefix later.symbols
  start : ∀ n, ctx.current = some n → (ctx.symbols.idOf? (startName n)).isSome

namespace Context.GrowsInto

variable {ctx later : Context} (h : ctx.GrowsInto later)
include h

theorem startSymbol? : later.startSymbol? = ctx.startSymbol? := by
  unfold Context.startSymbol?
  rw [h.current]
  cases hcurrent : ctx.current with
  | none => rfl
  | some n =>
    obtain ⟨id, hid⟩ := Option.isSome_iff_exists.1 (h.start n hcurrent)
    rw [Option.bind_some, Option.bind_some, hid, h.symbols.idOf? hid]

theorem sectionStart : later.sectionStart = ctx.sectionStart := by
  unfold Context.sectionStart
  rw [h.startSymbol?]
  cases hstart : ctx.startSymbol? with
  | none => rfl
  | some id =>
    obtain ⟨n, -, hid⟩ := Option.bind_eq_some_iff.1 hstart
    obtain ⟨s, hs, -⟩ := SymbolTable.exists_get?_of_idOf? hid
    rw [Option.bind_some, Option.bind_some, hs, h.symbols.get? hs]

theorem inSection (address : Word) : later.inSection address = ctx.inSection address := by
  rw [Context.inSection, Context.inSection, h.startSymbol?]

/-- An identifier keeps its value if the table had it, or still lacks it. -/
theorem valueOf {identifier : String}
    (hlacks : ctx.symbols.idOf? identifier = none → later.symbols.idOf? identifier = none) :
    later.valueOf identifier = ctx.valueOf identifier := by
  unfold Context.valueOf
  cases hid : ctx.symbols.idOf? identifier with
  | none => rw [hlacks hid]
  | some id =>
    obtain ⟨s, hs, -⟩ := SymbolTable.exists_get?_of_idOf? hid
    rw [h.symbols.idOf? hid]
    simp only [hs, h.symbols.get? hs]

end Context.GrowsInto

/-! ## Expressions -/

namespace Expr

/-- The identifiers that an expression refers to. -/
def references : Expr → List String
  | .reference identifier => [identifier]
  | .unary _ e => e.references
  | .binary _ l r => l.references ++ r.references
  | _ => []

variable {e : Expr} {ctx later : Context} {v : Value}

/-- The value of an expression waits for every identifier in it that the table lacks. -/
theorem anchor_of_mem_references (hv : e.eval ctx = .ok v) {name : String}
    (hname : name ∈ e.references) (hnone : ctx.symbols.idOf? name = none) :
    v.anchor = some (.unresolved name) := by
  induction e generalizing v with
  | constant | position | sectionStart | function => cases hname
  | reference identifier =>
    obtain rfl := List.mem_singleton.1 hname
    cases hv
    rw [Context.valueOf, hnone]
    rfl
  | unary op e ih =>
    obtain ⟨w, hw, hv⟩ := exceptBind_eq_ok.1 hv
    rw [Value.unary_anchor hv]
    exact ih hw hname
  | binary op l r ihl ihr =>
    obtain ⟨a, ha, hv⟩ := exceptBind_eq_ok.1 hv
    obtain ⟨b, hb, hv⟩ := exceptBind_eq_ok.1 hv
    exact Value.binary_unresolved hv ((List.mem_append.1 hname).imp (ihl ha) (ihr hb))

/-- An expression keeps its value when the table has grown by nothing that it refers to. -/
theorem eval_of_growsInto (he : e.IsFunctionFree) (h : ctx.GrowsInto later)
    (hlacks : ∀ name ∈ e.references, ctx.symbols.idOf? name = none →
      later.symbols.idOf? name = none)
    (hv : e.eval ctx = .ok v) : e.eval later = .ok v := by
  induction e generalizing v with
  | constant c => exact hv
  | position =>
    rw [eval, h.address, h.inSection]
    exact hv
  | sectionStart =>
    rw [eval, h.sectionStart, h.inSection]
    exact hv
  | reference identifier =>
    rw [eval, h.valueOf (hlacks identifier (List.mem_singleton_self identifier))]
    exact hv
  | unary op e ih =>
    obtain ⟨w, hw, hv⟩ := exceptBind_eq_ok.1 hv
    rw [eval, ih he hlacks hw]
    exact hv
  | binary op l r ihl ihr =>
    obtain ⟨a, ha, hv⟩ := exceptBind_eq_ok.1 hv
    obtain ⟨b, hb, hv⟩ := exceptBind_eq_ok.1 hv
    have hleft := ihl he.1 (fun name hname => hlacks name (List.mem_append_left _ hname)) ha
    have hright := ihr he.2 (fun name hname => hlacks name (List.mem_append_right _ hname)) hb
    rw [eval, hleft, hright]
    exact Value.binary_of_isPrefix h.symbols hv
  | function name value => cases he

/-- A number is the same when the table has grown, since nothing in its expression was lacking. -/
theorem eval_absolute_of_growsInto (he : e.IsFunctionFree) (h : ctx.GrowsInto later) {w : Word}
    (hw : e.eval ctx = .ok (.absolute w)) : e.eval later = .ok (.absolute w) := by
  refine eval_of_growsInto he h (fun name hname hnone => ?_) hw
  cases anchor_of_mem_references hw hname hnone

/-- What an expression comes to is the same when the table has grown: a number, an address that
moves with a symbol of the table, and one that waits for an identifier which the table still
lacks. -/
theorem eval_stable (he : e.IsFunctionFree) (h : ctx.GrowsInto later) (hv : e.eval ctx = .ok v)
    (hlacks : ∀ name, v.anchor = some (.unresolved name) → later.symbols.idOf? name = none) :
    e.eval later = .ok v := by
  refine eval_of_growsInto he h (fun name hname hnone => hlacks name ?_) hv
  exact anchor_of_mem_references hv hname hnone

/-- A context in a section that starts at 40, with a label four bytes behind its start. -/
def labelled : Context :=
  { Context.new .bit32 with
    address := 0x48
    current := some 0
    symbols :=
      ⟨[{ Symbol.declare (Context.startName 0) .internal with home := some 0, value := 0x40 },
        { Symbol.declare "here" .plain with home := some 0, value := 0x44 }]⟩ }

/-- The same place when a number and an import are in the table too. -/
def furtherOn : Context :=
  { labelled with symbols :=
      ⟨labelled.symbols.symbols ++ [.absolute "size" 16, .declare "other" .imported]⟩ }

/-- `($ - here << 1) + away`: a distance within the section, behind an identifier that both tables
lack. -/
def scaledDistance : Expr :=
  .binary .add (.binary .shl (.binary .sub .position (.reference "here")) (.constant 1))
    (.reference "away")

/-- The distance of two labels, scaled and next to a name that nobody knows, is the same further
on. -/
theorem eval_stable_furtherOn :
    labelled.GrowsInto furtherOn ∧
      scaledDistance.eval labelled = .ok (.relative 8 (.unresolved "away")) ∧
      scaledDistance.eval furtherOn = .ok (.relative 8 (.unresolved "away")) := by
  have hgrows : labelled.GrowsInto furtherOn := by
    refine ⟨rfl, rfl, List.prefix_append _ _, fun n hn => ?_⟩
    cases hn
    rfl
  have heval : scaledDistance.eval labelled = .ok (.relative 8 (.unresolved "away")) := rfl
  refine ⟨hgrows, heval, eval_stable (by simp [scaledDistance, IsFunctionFree]) hgrows heval ?_⟩
  rintro name hname
  cases hname
  rfl

end Expr

end Assembler
