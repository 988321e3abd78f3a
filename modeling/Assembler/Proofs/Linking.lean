import Assembler.Expr.Eval
import Assembler.Item.Emit
import Assembler.Proofs.Passes
import Assembler.Proofs.SymbolTable
import Mathlib.Data.BitVec

/-!
# An import against a definition

Two contexts that differ in one symbol: an import in the one, defined at `S` in the other. `Linked`
says so, and stays true when both register an identifier that they lack.

* `Expr.eval_linked`: what an expression is worth with the import, it is worth with the definition,
  moved by `S` if it moves with the symbol. Expressions carry the symbol linearly.
* `Field.settle_linked`: a field is settled alike in both, but for a field that waits for the
  symbol: the one context lists it, the other computes what the listed relocation asks for.
-/

namespace Assembler

/-- The symbol `id` is an import in the one context and defined at `S` in the other; they agree in
the cursor and in every other symbol. It is not the start of the current section. -/
structure Linked (id : SymbolId) (S : Word) (ctx other : Context) : Prop where
  address : other.address = ctx.address
  current : other.current = ctx.current
  imported : ∃ s, ctx.symbols.get? id = some s ∧ s.home = none ∧ s.isAbsolute = false ∧ s.value = 0
  defined : ∃ s, other.symbols.get? id = some s ∧ s.home.isSome ∧ s.isAbsolute = false ∧ s.value = S
  length : other.symbols.symbols.length = ctx.symbols.symbols.length
  get? : ∀ j, j ≠ id → other.symbols.get? j = ctx.symbols.get? j
  idOf? : ∀ identifier, other.symbols.idOf? identifier = ctx.symbols.idOf? identifier
  start : ctx.startSymbol? ≠ some id

/-- The value after the symbol `id` moved from zero to `S`. -/
def Value.shift (id : SymbolId) (S : Word) (v : Value) : Value :=
  ⟨v.constant + if v.anchor = some (.symbol id) then S else 0, v.anchor⟩

section Shift

variable {id : SymbolId} {S : Word}

theorem Value.shift_of_ne {v : Value} (h : v.anchor ≠ some (.symbol id)) : v.shift id S = v := by
  simp [Value.shift, h]

theorem Value.shift_of_none {v : Value} (h : v.anchor = none) : v.shift id S = v :=
  Value.shift_of_ne (by simp [h])

end Shift

namespace Linked

variable {id : SymbolId} {S : Word} {ctx other : Context} (h : Linked id S ctx other)
include h

theorem startSymbol? : other.startSymbol? = ctx.startSymbol? := by
  simp only [Context.startSymbol?, h.current, h.idOf?]

theorem sectionStart : other.sectionStart = ctx.sectionStart := by
  unfold Context.sectionStart
  rw [h.startSymbol?]
  cases hstart : ctx.startSymbol? with
  | none => rfl
  | some j =>
    have hne : j ≠ id := by
      rintro rfl
      exact h.start hstart
    simp only [Option.bind_some, h.get? j hne]

theorem inSection (address : Word) :
    other.inSection address = (ctx.inSection address).shift id S := by
  have hanchor : (ctx.inSection address).anchor ≠ some (.symbol id) := by
    intro hanchor
    simp only [Context.inSection, Option.map_eq_some_iff] at hanchor
    obtain ⟨j, hj, hid⟩ := hanchor
    cases hid
    exact h.start hj
  rw [Value.shift_of_ne hanchor, Context.inSection, Context.inSection, h.startSymbol?]

/-- An identifier has the same value with the definition, moved by `S` if it is the import. -/
theorem valueOf (identifier : String) :
    other.valueOf identifier = (ctx.valueOf identifier).shift id S := by
  unfold Context.valueOf
  rw [h.idOf?]
  cases ctx.symbols.idOf? identifier with
  | none => rw [Value.shift_of_ne (by simp [Value.relative])]
  | some j =>
    dsimp only
    by_cases hj : j = id
    · subst hj
      -- zero in the one context and `S` in the other
      obtain ⟨s, hs, -, habs, hvalue⟩ := h.imported
      obtain ⟨s', hs', -, habs', hvalue'⟩ := h.defined
      rw [hs, hs']
      simp [habs, habs', hvalue, hvalue', Value.relative, Value.shift]
    · rw [h.get? j hj]
      cases ctx.symbols.get? j with
      | none => rw [Value.shift_of_ne (by simp [Value.relative])]
      | some s =>
        dsimp only
        split
        · rw [Value.shift_of_none rfl]
        · rw [Value.shift_of_ne (by simpa [Value.relative] using hj)]

/-- The import itself is not placed. -/
theorem ne_of_isPlaced {j : SymbolId} (hj : Value.isPlaced ctx.symbols j) : j ≠ id := by
  rintro rfl
  obtain ⟨s, hs, hhome, habs, -⟩ := h.imported
  simp [Value.isPlaced, hs, Symbol.isImport, hhome, habs] at hj

end Linked

/-! ## Operators -/

section Operators

variable {id : SymbolId} {S : Word}

/-- An operator that keeps an address an address moves its result by as much. -/
theorem UnaryOp.compute_add {op : UnaryOp} (hop : op.keepsAnchor) (v d : Word) :
    op.compute (v + d) = op.compute v + d := by
  cases op with
  | identity => rfl
  | increment => exact add_right_comm v d 1
  | decrement => simp only [compute, BitVec.sub_eq_add_neg, add_right_comm v d]
  | negate => cases hop
  | complement => cases hop
  | logicalNot => cases hop

/-- An operator on a moved value gives the moved result. -/
theorem Value.unary_shift {op : UnaryOp} {v w : Value} (h : v.unary op = .ok w) :
    (v.shift id S).unary op = .ok (w.shift id S) := by
  unfold unary at h ⊢
  split at h
  · cases h
  next hkeeps =>
    cases h
    cases hanchor : v.anchor with
    | none => simp [shift, hanchor]
    | some anchor =>
      have hop : op.keepsAnchor := by simpa [hanchor] using hkeeps
      simp [shift, hanchor, hop, UnaryOp.compute_add hop]

/-- The sum of moved values is the moved sum. -/
theorem Value.add_shift {l r w : Value} (h : l.add r = .ok w) :
    (l.shift id S).add (r.shift id S) = .ok (w.shift id S) := by
  unfold add at h ⊢
  split at h
  · cases h
  next hone =>
    cases h
    cases hl : l.anchor with
    | none =>
      cases hr : r.anchor with
      | none => simp [shift, hl, hr]
      | some anchor => simp [shift, hl, hr, BitVec.add_assoc]
    | some anchor =>
      have hr : r.anchor = none := by simpa [hl] using hone
      simp [shift, hl, hr, add_right_comm l.constant _ r.constant]

variable {ctx other : Context}

/-- A distance that is known with the import has nothing to do with it. -/
theorem Linked.distance (h : Linked id S ctx other) {constant : Word} {a b : SymbolId} {w : Value}
    (hw : Value.distance ctx.symbols constant a b = .ok w) :
    a ≠ id ∧ b ≠ id ∧ w = .absolute constant ∧
      Value.distance other.symbols constant a b = .ok w := by
  unfold Value.distance at hw
  split at hw
  · cases hw
  next ha =>
    split at hw
    · cases hw
    next hb =>
      simp only [Bool.not_eq_eq_eq_not, Bool.not_true, Bool.not_eq_false] at ha hb
      -- what is placed is not the import
      have hane := h.ne_of_isPlaced ha
      have hbne := h.ne_of_isPlaced hb
      have hget : ∀ j, j ≠ id → Value.homeOf? other.symbols j = Value.homeOf? ctx.symbols j := by
        intro j hj
        rw [Value.homeOf?, h.get? j hj, Value.homeOf?]
      have hplaced : ∀ j, j ≠ id →
          Value.isPlaced other.symbols j = Value.isPlaced ctx.symbols j := by
        intro j hj
        rw [Value.isPlaced, h.get? j hj, Value.isPlaced]
      unfold Value.distance
      rw [hplaced a hane, hplaced b hbne, hget a hane, hget b hbne, ha, hb]
      split at hw
      next s t hs ht =>
        split at hw
        next hst =>
          cases hw
          exact ⟨hane, hbne, rfl, by simp [hst]⟩
        · cases hw
      · cases hw

/-- The difference of moved values is the moved difference, also where two addresses come to a
number. -/
theorem Linked.sub (h : Linked id S ctx other) {l r w : Value}
    (hw : l.sub ctx.symbols r = .ok w) :
    (l.shift id S).sub other.symbols (r.shift id S) = .ok (w.shift id S) := by
  unfold Value.sub at hw ⊢
  dsimp only at hw ⊢
  cases hr : r.anchor with
  | none =>
    rw [Value.shift_of_none hr, hr]
    cases hl : l.anchor with
    | none =>
      simp only [hl, hr] at hw
      cases hw
      simp [Value.shift, hl, Value.absolute]
    | some anchor =>
      simp only [hl, hr] at hw
      cases hw
      simp [Value.shift, hl, Value.relative, BitVec.sub_eq_add_neg,
        add_right_comm l.constant _ (-r.constant)]
  | some anchor =>
    cases hl : l.anchor with
    | none => simp [hl, hr] at hw
    | some left =>
      cases left with
      | unresolved identifier => simp [hl, hr] at hw
      | symbol a =>
        cases anchor with
        | unresolved identifier => simp [hl, hr] at hw
        | symbol b =>
          simp only [hl, hr] at hw
          -- two anchors leave a distance, in which the import has no part
          obtain ⟨hane, hbne, rfl, hdistance⟩ := h.distance hw
          rw [Value.shift_of_ne (by simp [hl, hane]), Value.shift_of_ne (by simp [hr, hbne]), hl,
            hr, Value.shift_of_none rfl]
          exact hdistance

/-- An operator on two moved values gives the moved result. -/
theorem Linked.binary (h : Linked id S ctx other) {op : BinaryOp} {l r w : Value}
    (hw : Value.binary ctx.symbols op l r = .ok w) :
    Value.binary other.symbols op (l.shift id S) (r.shift id S) = .ok (w.shift id S) := by
  unfold Value.binary at hw ⊢
  split at hw
  · exact Value.add_shift hw
  · exact h.sub hw
  next hadd hsub =>
    split at hw
    · cases hw
    next hanchors =>
      obtain ⟨hl, hr⟩ : l.anchor = none ∧ r.anchor = none := by simpa using hanchors
      rw [Value.shift_of_none hl, Value.shift_of_none hr]
      split at hw
      next v hv =>
        cases hw
        simp [hl, hr, Value.shift_of_none (v := .absolute v) rfl]
      · cases hw

/-- What an expression is worth with the import, it is worth with the definition, moved by the
definition's address if it moves with the symbol. -/
theorem Expr.eval_linked (h : Linked id S ctx other) {e : Expr} (he : e.IsFunctionFree) {v : Value}
    (hv : e.eval ctx = .ok v) : e.eval other = .ok (v.shift id S) := by
  induction e generalizing v with
  | constant c =>
    cases hv
    exact congrArg Except.ok (Value.shift_of_none rfl).symm
  | position =>
    cases hv
    rw [eval, h.inSection, h.address]
  | sectionStart =>
    cases hv
    rw [eval, h.inSection, h.sectionStart]
  | reference identifier =>
    cases hv
    rw [eval, h.valueOf]
  | unary op e ih =>
    obtain ⟨w, hw, hv⟩ := exceptBind_eq_ok.1 hv
    rw [eval, ih he hw]
    exact Value.unary_shift hv
  | binary op l r ihl ihr =>
    obtain ⟨w, hw, hv⟩ := exceptBind_eq_ok.1 hv
    obtain ⟨u, hu, hv⟩ := exceptBind_eq_ok.1 hv
    rw [eval, ihl he.1 hw, ihr he.2 hu]
    exact h.binary hv
  | function name value => cases he

/-! ## Identifiers that a table lacks -/

/-- The result of an operator moves with one of its operands, or with nothing. -/
theorem Value.binary_anchor {symbols : SymbolTable} {op : BinaryOp} {l r w : Value}
    (h : binary symbols op l r = .ok w) :
    w.anchor = none ∨ w.anchor = l.anchor ∨ w.anchor = r.anchor := by
  unfold binary at h
  split at h
  · unfold add at h
    split at h
    · cases h
    · cases h
      cases hl : l.anchor <;> simp
  · unfold sub at h
    dsimp only at h
    split at h
    · cases h
      exact .inl rfl
    next anchor hl _ =>
      cases h
      exact .inr (.inl hl.symm)
    · cases h
    · cases h
    · cases h
    · unfold distance at h
      grind [Value.absolute]
  · grind [Value.absolute]

/-- An expression moves with an identifier only if the table lacks it. -/
theorem Expr.idOf?_eq_none_of_eval {e : Expr} (he : e.IsFunctionFree) {v : Value}
    (hv : e.eval ctx = .ok v) {identifier : String}
    (hanchor : v.anchor = some (.unresolved identifier)) :
    ctx.symbols.idOf? identifier = none := by
  induction e generalizing v with
  | constant c =>
    cases hv
    cases hanchor
  | position =>
    cases hv
    simp [Context.inSection] at hanchor
  | sectionStart =>
    cases hv
    simp [Context.inSection] at hanchor
  | reference name =>
    cases hv
    unfold Context.valueOf at hanchor
    split at hanchor
    next hnone =>
      cases hanchor
      exact hnone
    next j hj =>
      obtain ⟨s, hs, -⟩ := SymbolTable.exists_get?_of_idOf? hj
      rw [hs] at hanchor
      dsimp only at hanchor
      split at hanchor <;> cases hanchor
  | unary op e ih =>
    obtain ⟨w, hw, hv⟩ := exceptBind_eq_ok.1 hv
    unfold Value.unary at hv
    split at hv
    · cases hv
    · cases hv
      exact ih he hw hanchor
  | binary op l r ihl ihr =>
    obtain ⟨w, hw, hv⟩ := exceptBind_eq_ok.1 hv
    obtain ⟨u, hu, hv⟩ := exceptBind_eq_ok.1 hv
    rcases Value.binary_anchor hv with hnone | hleft | hright
    · rw [hnone] at hanchor
      cases hanchor
    · exact ihl he.1 hw (by rw [← hleft, hanchor])
    · exact ihr he.2 hu (by rw [← hright, hanchor])
  | function name value => cases he

/-- The start of a section is the value of the symbol of its name. -/
theorem Context.sectionStart_eq (ctx : Context) :
    ctx.sectionStart =
      ((ctx.current.bind fun n => ctx.symbols.find? (startName n)).map Symbol.value).getD 0 := by
  unfold sectionStart startSymbol? SymbolTable.find?
  cases ctx.current with
  | none => rfl
  | some n =>
    simp only [Option.bind_some]
    cases (ctx.symbols.idOf? (startName n)).bind ctx.symbols.get? <;> rfl

/-- Where a section starts does not change when an identifier is registered that the table
lacked. -/
theorem Context.sectionStart_insert {identifier : String}
    (hnew : ctx.symbols.idOf? identifier = none) :
    (ctx.insert (.declare identifier .plain)).2.sectionStart = ctx.sectionStart := by
  rw [sectionStart_eq, sectionStart_eq]
  show ((ctx.current.bind fun n =>
    (ctx.symbols.insert (.declare identifier .plain)).2.find? (startName n)).map
      Symbol.value).getD 0 = _
  cases ctx.current with
  | none => rfl
  | some n =>
    simp only [Option.bind_some]
    by_cases hname : startName n = identifier
    · -- the start was taken for zero before, and is registered as zero now
      have hfind : (ctx.symbols.insert (.declare identifier .plain)).2.find? identifier =
          some (.declare identifier .plain) := SymbolTable.find?_insert_self _ _
      have hnone : ctx.symbols.find? identifier = none := SymbolTable.find?_eq_none_iff.2 hnew
      rw [hname, hfind, hnone, Option.map_some, Option.map_none]
      rfl
    · rw [SymbolTable.find?_insert_ne hname]

/-- Both contexts may register an identifier that they lack. -/
theorem Linked.insert (h : Linked id S ctx other) {identifier : String}
    (hnew : ctx.symbols.idOf? identifier = none) :
    Linked id S (ctx.insert (.declare identifier .plain)).2
      (other.insert (.declare identifier .plain)).2 := by
  have hnew' : other.symbols.idOf? identifier = none := by rw [h.idOf?, hnew]
  have hget := SymbolTable.get?_insert_of_none (s := .declare identifier .plain) hnew
  have hget' := SymbolTable.get?_insert_of_none (s := .declare identifier .plain) hnew'
  have hidOf := SymbolTable.idOf?_insert_of_none (s := .declare identifier .plain) hnew
  have hidOf' := SymbolTable.idOf?_insert_of_none (s := .declare identifier .plain) hnew'
  obtain ⟨x, hx, hximport⟩ := h.imported
  obtain ⟨x', hx', hxdefined⟩ := h.defined
  -- the new symbol stands behind all others
  have hid : id ≠ ctx.symbols.symbols.length := Nat.ne_of_lt (List.getElem?_eq_some_iff.1 hx).1
  refine ⟨h.address, h.current, ⟨x, ?_, hximport⟩, ⟨x', ?_, hxdefined⟩, ?_, ?_, ?_, ?_⟩
  · exact (hget id).trans (by rw [if_neg hid, hx])
  · exact (hget' id).trans (by rw [h.length, if_neg hid, hx'])
  · show (other.symbols.insert _).2.symbols.length = (ctx.symbols.insert _).2.symbols.length
    rw [SymbolTable.insert_of_none hnew', SymbolTable.insert_of_none hnew]
    simp [h.length]
  · intro j hj
    exact (hget' j).trans (by rw [h.length, h.get? j hj]; exact (hget j).symm)
  · intro name
    exact (hidOf' name).trans (by rw [h.length, h.idOf? name]; exact (hidOf name).symm)
  · intro hstart
    obtain ⟨n, hn, hname⟩ := Option.bind_eq_some_iff.1 hstart
    rw [show (ctx.insert (.declare identifier .plain)).2.symbols.idOf? (Context.startName n) = _
      from hidOf (Context.startName n)] at hname
    split at hname
    · exact hid (Option.some.inj hname).symm
    · exact h.start (Option.bind_eq_some_iff.2 ⟨n, hn, hname⟩)

end Operators

/-! ## Fields -/

/-- What a field receives from a relocation, for a symbol at `S` and a field at `P`. -/
def Relocation.linkedValue (r : Relocation) (S P : Word) : Word :=
  match r.kind with
  | .absolute => S + r.addend
  | .pcRelative => S + r.addend - P

section Fields

variable {id : SymbolId} {S : Word} {ctx other : Context}

/-- A value resolves alike in both contexts, but for one that moves with the symbol. -/
theorem Linked.resolve (h : Linked id S ctx other) {v : Value}
    (hv : ∀ identifier, v.anchor = some (.unresolved identifier) →
      ctx.symbols.idOf? identifier = none)
    {resolved : Resolved} {after : Context} (hr : v.resolve ctx = .ok resolved after) :
    ∃ resolved' after', (v.shift id S).resolve other = .ok resolved' after' ∧
      Linked id S after after' ∧ after.sectionStart = ctx.sectionStart ∧
      after.relocations = ctx.relocations ∧ after'.relocations = other.relocations ∧
      ((resolved = .relocate id v.constant ∧ resolved' = .value (v.constant + S)) ∨
        (resolved' = resolved ∧ ∀ addend, resolved ≠ .relocate id addend)) := by
  rw [Value.resolve_apply] at hr ⊢
  cases hanchor : v.anchor with
  | none =>
    simp only [hanchor] at hr
    cases hr
    rw [Value.shift_of_none hanchor, hanchor]
    exact ⟨_, _, rfl, h, rfl, rfl, rfl, .inr ⟨rfl, nofun⟩⟩
  | some anchor =>
    cases anchor with
    | symbol j =>
      simp only [hanchor] at hr
      by_cases hj : j = id
      · subst hj
        -- the one case in which the contexts resolve differently
        obtain ⟨x, hx, hhome, habs, -⟩ := h.imported
        obtain ⟨x', hx', hhome', -, -⟩ := h.defined
        have himport : x.isImport = true := by simp [Symbol.isImport, hhome, habs]
        have hdefined : x'.isImport = false := by
          simp [Symbol.isImport, Option.isNone_eq_false_iff.2 hhome']
        simp only [hx, himport, ↓reduceIte, EStateM.Result.ok.injEq] at hr
        obtain ⟨rfl, rfl⟩ := hr
        refine ⟨.value (v.constant + S), other, ?_, h, rfl, rfl, rfl, .inl ⟨rfl, rfl⟩⟩
        simp [Value.shift, hanchor, hx', hdefined]
      · rw [Value.shift_of_ne (by simp [hanchor, hj]), hanchor]
        dsimp only
        rw [h.get? j hj]
        split at hr
        next x hx =>
          split at hr
          next himport =>
            cases hr
            exact ⟨_, _, if_pos himport, h, rfl, rfl, rfl, .inr ⟨rfl, by simpa using hj⟩⟩
          next himport =>
            cases hr
            exact ⟨_, _, if_neg himport, h, rfl, rfl, rfl, .inr ⟨rfl, nofun⟩⟩
        · cases hr
    | unresolved identifier =>
      have hnew := hv identifier hanchor
      have hnew' : other.symbols.idOf? identifier = none := by rw [h.idOf?, hnew]
      have hid : ctx.symbols.symbols.length ≠ id := by
        obtain ⟨x, hx, -⟩ := h.imported
        exact Nat.ne_of_gt (List.getElem?_eq_some_iff.1 hx).1
      -- both tables lack the identifier, and register it under the same id
      have hfst : (ctx.insert (.declare identifier .plain)).1 = ctx.symbols.symbols.length := by
        show (ctx.symbols.insert _).1 = _
        rw [SymbolTable.insert_of_none hnew]
      have hfst' : (other.insert (.declare identifier .plain)).1 = ctx.symbols.symbols.length := by
        show (other.symbols.insert _).1 = _
        rw [SymbolTable.insert_of_none hnew', h.length]
      simp only [hanchor] at hr
      obtain ⟨rfl, rfl⟩ : .relocate (ctx.insert (.declare identifier .plain)).1 v.constant =
          resolved ∧ (ctx.insert (.declare identifier .plain)).2 = after := by
        simpa using hr
      rw [Value.shift_of_ne (by simp [hanchor]), hanchor, hfst, ← hfst']
      refine ⟨_, _, rfl, h.insert hnew, Context.sectionStart_insert hnew, rfl, rfl,
        .inr ⟨rfl, ?_⟩⟩
      rw [hfst']
      simpa using hid

/-- A relocation changes nothing that expressions see. -/
theorem Linked.addRelocation (h : Linked id S ctx other) (rs rs' : Array Relocation) :
    Linked id S { ctx with relocations := rs } { other with relocations := rs' } :=
  ⟨h.address, h.current, h.imported, h.defined, h.length, h.get?, h.idOf?, h.start⟩

namespace Field

/-- The number to write for a field with a known value. -/
def number (f : Field) (stop value : Word) : Word :=
  match f.kind with
  | .absolute => value
  | .relative => value - stop

/-- The relocation of a field that has to wait for a symbol. -/
def relocation (f : Field) (ctx : Context) (address stop : Word) (symbol : SymbolId)
    (addend : Word) : Relocation where
  target := symbol
  home := ctx.current.getD 0
  offset := address - ctx.sectionStart
  addend :=
    match f.kind with
    | .absolute => addend
    | .relative => addend - (stop - address)
  kind :=
    match f.kind with
    | .absolute => .absolute
    | .relative => .pcRelative
  size := f.size

@[simp]
theorem relocation_target (f : Field) (ctx : Context) (address stop : Word) (symbol : SymbolId)
    (addend : Word) : (f.relocation ctx address stop symbol addend).target = symbol := rfl

/-- The number to write for a field that is resolved, and the context that lists it if it has to
wait. -/
def settled (f : Field) (address stop : Word) (ctx : Context) : Resolved → Word × Context
  | .value v => (f.number stop v, ctx)
  | .relocate symbol addend =>
    (0, { ctx with relocations :=
      ctx.relocations.push (f.relocation ctx address stop symbol addend) })

@[simp]
theorem settled_value (f : Field) (address stop : Word) (ctx : Context) (v : Word) :
    f.settled address stop ctx (.value v) = (f.number stop v, ctx) := rfl

@[simp]
theorem settled_relocate (f : Field) (address stop : Word) (ctx : Context) (symbol : SymbolId)
    (addend : Word) :
    f.settled address stop ctx (.relocate symbol addend) =
      (0, { ctx with relocations :=
        ctx.relocations.push (f.relocation ctx address stop symbol addend) }) := rfl

/-- A field is evaluated and resolved, and listed if it has to wait. -/
theorem settle_apply (f : Field) (address stop : Word) (ctx : Context) :
    f.settle address stop ctx =
      match f.expr.eval ctx with
      | .error e => .error e ctx
      | .ok value =>
        match value.resolve ctx with
        | .error e mid => .error e mid
        | .ok resolved mid =>
          .ok (f.settled address stop mid resolved).1 (f.settled address stop mid resolved).2 := by
  rw [settle, bind_apply, get_apply]
  dsimp only
  cases f.expr.eval ctx with
  | error e => rfl
  | ok value =>
    rw [ofExcept_ok, bind_apply, pure_apply]
    dsimp only
    rw [bind_apply]
    cases value.resolve ctx with
    | error e mid => rfl
    | ok resolved mid =>
      cases resolved <;> cases hkind : f.kind <;>
        simp [settled, number, relocation, hkind, Context.addRelocation, bind_apply]

theorem settle_of_resolve {f : Field} {value : Value} {resolved : Resolved} {after : Context}
    (heval : f.expr.eval ctx = .ok value) (hresolve : value.resolve ctx = .ok resolved after)
    (address stop : Word) :
    f.settle address stop ctx =
      .ok (f.settled address stop after resolved).1 (f.settled address stop after resolved).2 := by
  rw [settle_apply, heval]
  simp only [hresolve]

/-- A field that is settled was evaluated and resolved. -/
theorem settle_eq_ok {f : Field} {after : Context} {address stop v : Word}
    (h : f.settle address stop ctx = .ok v after) :
    ∃ value resolved mid, f.expr.eval ctx = .ok value ∧ value.resolve ctx = .ok resolved mid ∧
      f.settled address stop mid resolved = (v, after) := by
  rw [settle_apply] at h
  split at h
  · cases h
  next value heval =>
    split at h
    · cases h
    next resolved mid hresolve =>
      cases h
      exact ⟨value, resolved, mid, heval, hresolve, rfl⟩

/-- The relocation of a field asks for the number that the field would have had. A distance counts
from the end of the item, and its addend makes up for the way from the field to there. -/
theorem linkedValue_relocation (f : Field) (ctx : Context) (address stop : Word)
    (symbol : SymbolId) (addend S : Word) :
    (f.relocation ctx address stop symbol addend).linkedValue S address =
      f.number stop (addend + S) := by
  cases hkind : f.kind with
  | absolute => simp only [relocation, Relocation.linkedValue, number, hkind, BitVec.add_comm]
  | relative =>
    simp only [relocation, Relocation.linkedValue, number, hkind]
    grind

/-- A field is settled alike in both contexts, or it waits for the symbol in the one: then that one
lists it and writes zero, and the other writes what the listed relocation asks for. -/
theorem settle_linked (h : Linked id S ctx other) {f : Field} (hf : f.expr.IsFunctionFree)
    {address stop v : Word} {after : Context} (hv : f.settle address stop ctx = .ok v after) :
    ∃ v' after', f.settle address stop other = .ok v' after' ∧ Linked id S after after' ∧
      after.sectionStart = ctx.sectionStart ∧
      ∃ new : List Relocation, after.relocations = ctx.relocations ++ new ∧
        after'.relocations = other.relocations ++ new.filter (·.target ≠ id) ∧
        ((∃ r, new = [r] ∧ r.target = id ∧ ctx.sectionStart + r.offset = address ∧
            r.size = f.size ∧ v = 0 ∧ v' = r.linkedValue S address) ∨
          (v' = v ∧ ∀ r ∈ new, r.target ≠ id)) := by
  obtain ⟨value, resolved, mid, heval, hresolve, hsettled⟩ := settle_eq_ok hv
  obtain ⟨resolved', mid', hresolve', hlinked, hstart, hrel, hrel', hcase⟩ :=
    h.resolve (fun _ => Expr.idOf?_eq_none_of_eval hf heval) hresolve
  rw [settle_of_resolve (Expr.eval_linked h hf heval) hresolve']
  have hoffset : ∀ start : Word, start + (address - start) = address := by
    intro start
    rw [BitVec.add_comm, BitVec.sub_add_cancel]
  rcases hcase with ⟨rfl, rfl⟩ | ⟨rfl, hne⟩
  · -- the field waits for the symbol
    cases hsettled
    refine ⟨_, _, rfl, hlinked.addRelocation _ _, hstart,
      [f.relocation mid address stop id value.constant], ?_, ?_,
      .inl ⟨_, rfl, rfl, ?_, rfl, rfl, ?_⟩⟩
    · simp [hrel]
    · simp [hrel']
    · rw [← hstart]
      exact hoffset _
    · rw [linkedValue_relocation, settled_value]
  · cases resolved' with
    | value w =>
      cases hsettled
      exact ⟨_, _, rfl, hlinked, hstart, [], by simp [hrel], by simp [hrel'], .inr ⟨rfl, by simp⟩⟩
    | relocate symbol addend =>
      cases hsettled
      have htarget : symbol ≠ id := by
        rintro rfl
        exact hne addend rfl
      have hsame : f.relocation mid' address stop symbol addend =
          f.relocation mid address stop symbol addend := by
        simp only [relocation, hlinked.current, hlinked.sectionStart]
      refine ⟨_, _, rfl, hlinked.addRelocation _ _, hstart,
        [f.relocation mid address stop symbol addend], ?_, ?_, .inr ⟨rfl, ?_⟩⟩
      · simp [hrel]
      · simp [hrel', hsame, htarget]
      · simpa using htarget

end Field

end Fields

end Assembler
