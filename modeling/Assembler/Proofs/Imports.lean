import Assembler.Proofs.Growth
import Assembler.Proofs.Linking

/-!
# Imports that are listed already

An identifier that the table lacks enters it as an import when a field refers to it. A context that
holds such imports from the start comes to the same numbers and the same relocations as one that
comes to them in time: where the one finds an unresolved identifier, the other finds the import.

* `SymbolTable.Grows`: a table goes on from another with imports alone.
* `Expr.eval_foresees`: what evaluates in a context evaluates to the same with imports listed ahead.
* `Field.settle_resume`: a field is settled alike.
-/

namespace Assembler

namespace SymbolTable

/-- A table goes on from another with identifiers that were only referred to. -/
def Grows (t u : SymbolTable) : Prop :=
  ∃ names : List String, u.symbols = t.symbols ++ names.map (Symbol.declare · .plain)

variable {t u v : SymbolTable} {identifier : String} {id : SymbolId}

theorem Grows.refl (t : SymbolTable) : t.Grows t := ⟨[], by simp⟩

theorem Grows.trans (htu : t.Grows u) (huv : u.Grows v) : t.Grows v := by
  obtain ⟨names, hu⟩ := htu
  obtain ⟨more, hv⟩ := huv
  exact ⟨names ++ more, by rw [hv, hu, List.map_append, List.append_assoc]⟩

theorem Grows.length_le (h : t.Grows u) : t.symbols.length ≤ u.symbols.length := by
  obtain ⟨names, hu⟩ := h
  rw [hu, List.length_append]
  omega

theorem Grows.eq_of_length_le (h : t.Grows u) (hle : u.symbols.length ≤ t.symbols.length) :
    u = t := by
  obtain ⟨names, hu⟩ := h
  rw [hu, List.length_append, List.length_map] at hle
  obtain rfl : names = [] := List.length_eq_zero_iff.1 (by omega)
  obtain ⟨symbols⟩ := u
  obtain ⟨symbols'⟩ := t
  simpa using hu

theorem Grows.isPrefix (h : t.Grows u) : t.IsPrefix u := by
  obtain ⟨names, hu⟩ := h
  exact ⟨_, hu.symm⟩

/-- What a table lacks and a later one has is an import. -/
theorem Grows.get?_of_idOf? (h : t.Grows u) (hnone : t.idOf? identifier = none)
    (hid : u.idOf? identifier = some id) : u.get? id = some (.declare identifier .plain) := by
  obtain ⟨names, hu⟩ := h
  obtain ⟨s, hs, hname⟩ := exists_get?_of_idOf? hid
  have hmem : s ∈ t.symbols ++ names.map (Symbol.declare · .plain) := hu ▸ List.mem_of_getElem? hs
  rcases List.mem_append.1 hmem with hold | hnew
  · -- then the first table would have it
    have hfound := List.findIdx?_eq_none_iff.1 hnone s hold
    simp [hname] at hfound
  · obtain ⟨name, -, rfl⟩ := List.mem_map.1 hnew
    rw [hs, ← hname]
    rfl

theorem grows_insert (h : t.idOf? identifier = none) :
    t.Grows (t.insert (.declare identifier .plain)).2 :=
  ⟨[identifier], by rw [insert_of_none h]; rfl⟩

theorem length_le_insert (t : SymbolTable) (s : Symbol) :
    t.symbols.length ≤ (t.insert s).2.symbols.length := by
  unfold insert
  split <;> simp

/-- The longer of two tables. -/
def longer (t u : SymbolTable) : SymbolTable :=
  if t.symbols.length < u.symbols.length then u else t

theorem Grows.longer_eq (h : t.Grows u) : t.longer u = u := by
  unfold longer
  split
  · rfl
  next hle => exact (h.eq_of_length_le (Nat.not_lt.1 hle)).symm

theorem Grows.longer_eq_self (h : u.Grows t) : t.longer u = t :=
  if_neg (Nat.not_lt.2 h.length_le)

end SymbolTable

/-! ## Evaluation -/

/-- The import in place of an unresolved identifier, if the table has it. -/
def Anchor.imported (t : SymbolTable) : Anchor → Anchor
  | .symbol id => .symbol id
  | .unresolved identifier =>
    match t.idOf? identifier with
    | some id => .symbol id
    | none => .unresolved identifier

/-- The value that moves with the import in place of an unresolved identifier. -/
def Value.imported (t : SymbolTable) (v : Value) : Value :=
  ⟨v.constant, v.anchor.map (Anchor.imported t)⟩

theorem Value.imported_of_none {t : SymbolTable} {v : Value} (h : v.anchor = none) :
    v.imported t = v := by
  rw [Value.imported, h, Option.map_none, ← h]

/-- The second context stands where the first does and has imports that the first lacks. The first
has the start of the section that it is in. -/
structure Foresees (ctx other : Context) : Prop where
  address : other.address = ctx.address
  current : other.current = ctx.current
  symbols : ctx.symbols.Grows other.symbols
  start : ∀ n, ctx.current = some n → (ctx.symbols.idOf? (Context.startName n)).isSome

namespace Foresees

variable {ctx other : Context} (h : Foresees ctx other)
include h

theorem growsInto : ctx.GrowsInto other := ⟨h.address, h.current, h.symbols.isPrefix, h.start⟩

theorem inSection (address : Word) :
    other.inSection address = (ctx.inSection address).imported other.symbols := by
  simp only [Context.inSection, Value.imported, h.growsInto.startSymbol?, Option.map_map]
  rfl

/-- An identifier has the value of its import when the table has one for it. -/
theorem valueOf (identifier : String) :
    other.valueOf identifier = (ctx.valueOf identifier).imported other.symbols := by
  unfold Context.valueOf
  cases hid : ctx.symbols.idOf? identifier with
  | some id =>
    obtain ⟨s, hs, -⟩ := SymbolTable.exists_get?_of_idOf? hid
    rw [h.symbols.isPrefix.idOf? hid]
    simp only [hs, h.symbols.isPrefix.get? hs]
    split <;> rfl
  | none =>
    cases hother : other.symbols.idOf? identifier with
    | none => simp [Value.relative, Value.imported, Anchor.imported, hother]
    | some id =>
      simp only [h.symbols.get?_of_idOf? hid hother]
      simp [Value.relative, Value.imported, Anchor.imported, hother, Symbol.declare]

/-- A difference that exists is the same difference when imports stand for unresolved
identifiers. -/
theorem sub {l r w : Value} (hw : Value.sub ctx.symbols l r = .ok w) :
    Value.sub other.symbols (l.imported other.symbols) (r.imported other.symbols) =
      .ok (w.imported other.symbols) := by
  unfold Value.sub at hw ⊢
  dsimp only at hw ⊢
  split at hw
  next hl hr =>
    cases hw
    simp [Value.imported, hl, hr, Value.absolute]
  next anchor hl hr =>
    cases hw
    simp [Value.imported, hl, hr, Value.relative]
  · cases hw
  · cases hw
  · cases hw
  next a b hl hr =>
    obtain ⟨hdistance, hnone⟩ := Value.distance_of_isPrefix h.symbols.isPrefix hw
    rw [Value.imported_of_none hnone]
    simpa [Value.imported, hl, hr, Anchor.imported] using hdistance

/-- What an operator gives is what it gives when imports stand for unresolved identifiers. -/
theorem binary {op : BinaryOp} {l r w : Value} (hw : Value.binary ctx.symbols op l r = .ok w) :
    Value.binary other.symbols op (l.imported other.symbols) (r.imported other.symbols) =
      .ok (w.imported other.symbols) := by
  unfold Value.binary at hw ⊢
  split at hw
  next =>
    unfold Value.add at hw ⊢
    split at hw
    · cases hw
    next hmoves =>
      cases hw
      simp [Value.imported, hmoves, Option.map_or]
  next => exact h.sub hw
  next hadd hsub =>
    split at hw
    · cases hw
    next hmoves =>
      split at hw
      next v hv =>
        cases hw
        simp [Value.imported, hmoves, hv, Value.absolute]
      · cases hw

end Foresees

/-- What evaluates in a context evaluates alike where imports are listed ahead. -/
theorem Expr.eval_foresees {ctx other : Context} (h : Foresees ctx other) {e : Expr}
    (he : e.IsFunctionFree) {v : Value} (hv : e.eval ctx = .ok v) :
    e.eval other = .ok (v.imported other.symbols) := by
  induction e generalizing v with
  | constant c =>
    cases hv
    rfl
  | position =>
    cases hv
    rw [eval, h.address, h.inSection]
  | sectionStart =>
    cases hv
    rw [eval, h.growsInto.sectionStart, h.inSection]
  | reference identifier =>
    cases hv
    rw [eval, h.valueOf]
  | unary op e ih =>
    obtain ⟨w, hw, hv⟩ := exceptBind_eq_ok.1 hv
    rw [eval, ih he hw]
    unfold Value.unary at hv
    split at hv
    · cases hv
    next hop =>
      cases hv
      simp [bind, Except.bind, Value.unary, Value.imported, hop]
  | binary op l r ihl ihr =>
    obtain ⟨w, hw, hv⟩ := exceptBind_eq_ok.1 hv
    obtain ⟨u, hu, hv⟩ := exceptBind_eq_ok.1 hv
    rw [eval, ihl he.1 hw, ihr he.2 hu]
    exact h.binary hv
  | function name value => cases he

/-- Relocations are nothing that an expression sees. -/
theorem Expr.eval_relocations (ctx : Context) (relocations : Array Relocation) {e : Expr}
    (he : e.IsFunctionFree) : e.eval { ctx with relocations := relocations } = e.eval ctx := by
  induction e with
  | constant | position | sectionStart | reference => rfl
  | unary op e ih => rw [eval, eval, ih he]
  | binary op l r ihl ihr => rw [eval, eval, ihl he.1, ihr he.2]
  | function name value => cases he

/-! ## Fields -/

namespace Context

/-- The context of a run that an earlier run left relocations and a table to. -/
def resume (ctx : Context) (left : Array Relocation) (t : SymbolTable) : Context :=
  { ctx with symbols := ctx.symbols.longer t, relocations := left ++ ctx.relocations }

/-- A table that is no longer than the one at hand leaves nothing but its relocations. -/
theorem resume_of_length_le {ctx : Context} {t : SymbolTable}
    (h : t.symbols.length ≤ ctx.symbols.symbols.length) (left : Array Relocation) :
    ctx.resume left t = { ctx with relocations := left ++ ctx.relocations } := by
  rw [resume, SymbolTable.longer, if_neg (Nat.not_lt.2 h)]

/-- What a step comes to in the context of a run that an earlier run left something to. -/
def resumed {α : Type} (left : Array Relocation) (t : SymbolTable) :
    EStateM.Result EvalError Context α → EStateM.Result EvalError Context α
  | .ok a after => .ok a (after.resume left t)
  | .error e after => .error e (after.resume left t)

/-- A value is resolved as it is without what an earlier run left, if the table of that run is no
longer than the one at hand. -/
theorem resolve_resume {ctx : Context} {t : SymbolTable}
    (h : t.symbols.length ≤ ctx.symbols.symbols.length) (left : Array Relocation) (v : Value) :
    v.resolve (ctx.resume left t) = resumed left t (v.resolve ctx) := by
  have hinsert (s : Symbol) : t.symbols.length ≤ (ctx.insert s).2.symbols.symbols.length :=
    Nat.le_trans h (SymbolTable.length_le_insert ctx.symbols s)
  rw [Value.resolve_apply, Value.resolve_apply]
  cases v.anchor with
  | none => rfl
  | some anchor =>
    cases anchor with
    | symbol id =>
      simp only [resume_of_length_le h]
      cases ctx.symbols.get? id with
      | none => simp [resumed, resume_of_length_le h]
      | some s =>
        dsimp only
        split <;> simp [resumed, resume_of_length_le h]
    | unresolved identifier =>
      simp only [resumed, resume_of_length_le h, resume_of_length_le (hinsert _)]
      rfl

/-- An identifier that the table lacks is registered as an import, and nothing else is. -/
theorem resolve_grows {ctx after : Context} {v : Value} {resolved : Resolved}
    (hv : ∀ identifier, v.anchor = some (.unresolved identifier) →
      ctx.symbols.idOf? identifier = none)
    (h : v.resolve ctx = .ok resolved after) :
    ctx.symbols.Grows after.symbols ∧ after = { ctx with symbols := after.symbols } := by
  rw [Value.resolve_apply] at h
  split at h
  · cases h
    exact ⟨.refl _, rfl⟩
  · split at h
    · split at h <;> cases h <;> exact ⟨.refl _, rfl⟩
    · cases h
  next identifier hanchor =>
    cases h
    exact ⟨SymbolTable.grows_insert (hv identifier hanchor), rfl⟩

end Context

/-- A value resolves alike where the import that it gives rise to is listed ahead. -/
theorem Foresees.resolve {ctx other : Context} (h : Foresees ctx other) {v : Value}
    {resolved : Resolved} {after : Context}
    (hafter : after.symbols.Grows other.symbols) (hr : v.resolve ctx = .ok resolved after) :
    (v.imported other.symbols).resolve other = .ok resolved other := by
  rw [Value.resolve_apply] at hr ⊢
  cases hanchor : v.anchor with
  | none =>
    simp only [hanchor] at hr
    cases hr
    simp [Value.imported, hanchor]
  | some anchor =>
    cases anchor with
    | symbol id =>
      simp only [hanchor] at hr
      split at hr
      next s hs =>
        simp only [Value.imported, hanchor, Option.map_some, Anchor.imported,
          h.symbols.isPrefix.get? hs]
        split at hr
        next himport =>
          cases hr
          simp [himport]
        next himport =>
          cases hr
          simp [himport]
      · cases hr
    | unresolved identifier =>
      simp only [hanchor] at hr
      cases hr
      have hid : other.symbols.idOf? identifier =
          some (ctx.insert (.declare identifier .plain)).1 :=
        hafter.isPrefix.idOf?
          (SymbolTable.idOf?_insert_self ctx.symbols (.declare identifier .plain))
      have hget : other.symbols.get? (ctx.insert (.declare identifier .plain)).1 =
          some (.declare identifier .plain) :=
        hafter.isPrefix.get? (SymbolTable.get?_insert_self ctx.symbols (.declare identifier .plain))
      simp only [Value.imported, hanchor, Option.map_some, Anchor.imported, hid, hget]
      rfl

namespace Field

variable {f : Field} {ctx after : Context} {address stop v : Word}

/-- What is settled when a value is resolved changes the relocations alone. -/
theorem settled_eq {resolved : Resolved} (h : f.settled address stop ctx resolved = (v, after)) :
    after = { ctx with relocations := after.relocations } := by
  cases resolved <;> cases h <;> rfl

theorem settle_grows (hf : f.expr.IsFunctionFree)
    (h : f.settle address stop ctx = .ok v after) :
    ctx.symbols.Grows after.symbols ∧
      after = { ctx with symbols := after.symbols, relocations := after.relocations } := by
  obtain ⟨value, resolved, mid, heval, hresolve, hsettled⟩ := settle_eq_ok h
  obtain ⟨hgrows, hmid⟩ :=
    Context.resolve_grows (fun _ => Expr.idOf?_eq_none_of_eval hf heval) hresolve
  have hafter := settled_eq hsettled
  rw [hafter]
  refine ⟨hgrows, ?_⟩
  rw [hmid]

/-- A relocation is listed alike behind those of an earlier run. -/
theorem settled_resume {t : SymbolTable} {left : Array Relocation}
    (h : (ctx.resume left t).sectionStart = ctx.sectionStart) (address stop : Word)
    (resolved : Resolved) :
    f.settled address stop (ctx.resume left t) resolved =
      ((f.settled address stop ctx resolved).1,
        (f.settled address stop ctx resolved).2.resume left t) := by
  cases resolved with
  | value w => rfl
  | relocate symbol addend =>
    have hsame : f.relocation (ctx.resume left t) address stop symbol addend =
        f.relocation ctx address stop symbol addend := by
      simp only [relocation, h]
      rfl
    simp only [settled, hsame]
    simp [Context.resume]

/-- A field is settled alike where an earlier run left relocations and imports, if those are behind
it or go on from it. -/
theorem settle_resume (hf : f.expr.IsFunctionFree)
    (hstart : ∀ n, ctx.current = some n → (ctx.symbols.idOf? (Context.startName n)).isSome)
    {t : SymbolTable} (left : Array Relocation)
    (ht : t.Grows ctx.symbols ∨
      ∃ v after, f.settle address stop ctx = .ok v after ∧ after.symbols.Grows t) :
    f.settle address stop (ctx.resume left t) =
      Context.resumed left t (f.settle address stop ctx) := by
  rcases ht with ht | ⟨v, after, hsettle, ht⟩
  · -- the table is the same, and nothing is seen of the relocations
    have heval : f.expr.eval (ctx.resume left t) = f.expr.eval ctx := by
      rw [Context.resume_of_length_le ht.length_le]
      exact Expr.eval_relocations _ _ hf
    cases hvalue : f.expr.eval ctx with
    | error e => simp only [settle_apply, heval, hvalue, Context.resumed]
    | ok value =>
      have hresolve := Context.resolve_resume ht.length_le left value
      cases hresolved : value.resolve ctx with
      | error e mid =>
        rw [hresolved] at hresolve
        simp only [settle_apply, heval, hvalue, hresolve, hresolved, Context.resumed]
      | ok resolved mid =>
        obtain ⟨hmid, -⟩ :=
          Context.resolve_grows (fun _ => Expr.idOf?_eq_none_of_eval hf hvalue) hresolved
        rw [hresolved] at hresolve
        rw [settle_of_resolve (heval.trans hvalue) hresolve, settle_of_resolve hvalue hresolved,
          settled_resume]
        · rfl
        · rw [Context.resume_of_length_le (ht.trans hmid).length_le]
          rfl
  · -- the import that the field gives rise to is listed
    obtain ⟨value, resolved, mid, heval, hresolve, hsettled⟩ := settle_eq_ok hsettle
    obtain ⟨hmid, heq⟩ :=
      Context.resolve_grows (fun _ => Expr.idOf?_eq_none_of_eval hf heval) hresolve
    have hmidt : mid.symbols.Grows t := by
      rw [settled_eq hsettled] at ht
      exact ht
    have hsymbols : (ctx.resume left t).symbols = t := (hmid.trans hmidt).longer_eq
    have hforesees : Foresees ctx (ctx.resume left t) :=
      ⟨rfl, rfl, hsymbols.symm ▸ hmid.trans hmidt, hstart⟩
    have hresolve' := hforesees.resolve (hsymbols.symm ▸ hmidt) hresolve
    have hsame : ctx.resume left t = mid.resume left t := by
      rw [heq]
      simp only [Context.resume, hmidt.longer_eq, (hmid.trans hmidt).longer_eq]
    have hstart' : Foresees mid (mid.resume left t) := by
      refine ⟨rfl, rfl, by rwa [← hsame, hsymbols], fun n hn => ?_⟩
      rw [heq] at hn
      obtain ⟨id, hid⟩ := Option.isSome_iff_exists.1 (hstart n hn)
      rw [hmid.isPrefix.idOf? hid]
      rfl
    rw [settle_of_resolve (Expr.eval_foresees hforesees hf heval) hresolve', hsettle, hsame,
      settled_resume hstart'.growsInto.sectionStart, hsettled]
    rfl

end Field

end Assembler
