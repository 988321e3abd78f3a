import Assembler.Proofs.Resumption

/-!
# What an item adds to the tables

An item is written field by field, and any of its fields, or the sink, can fail when others have
changed the tables already. What they do adds up: `Context.GrowsBy` says that the tables of a
context have only grown, by imports that the fields refer to and by one relocation for each field at
most. One field does no more than that (`Field.settle_growsBy`), and it composes over fields one
after the other.

Main statement: `Item.emit_only_adds`.
-/

namespace Assembler

/-- An expression waits for no identifier but one that it refers to. -/
theorem Expr.mem_references_of_eval {e : Expr} (he : e.IsFunctionFree) {ctx : Context} {v : Value}
    (hv : e.eval ctx = .ok v) {name : String} (hname : v.anchor = some (.unresolved name)) :
    name ∈ e.references := by
  induction e generalizing v with
  | constant c =>
    cases hv
    cases hname
  | position | sectionStart =>
    cases hv
    simp [Context.inSection] at hname
  | reference identifier =>
    cases hv
    unfold Context.valueOf at hname
    rw [references, List.mem_singleton]
    grind [Value.relative, Value.absolute]
  | unary op e ih =>
    obtain ⟨w, hw, hv⟩ := exceptBind_eq_ok.1 hv
    rw [Value.unary_anchor hv] at hname
    exact ih he hw hname
  | binary op l r ihl ihr =>
    obtain ⟨a, ha, hv⟩ := exceptBind_eq_ok.1 hv
    obtain ⟨b, hb, hv⟩ := exceptBind_eq_ok.1 hv
    rw [references, List.mem_append]
    rcases Value.binary_anchor hv with hnone | hleft | hright
    · rw [hnone] at hname
      cases hname
    · exact .inl (ihl he.1 ha (hleft ▸ hname))
    · exact .inr (ihr he.2 hb (hright ▸ hname))
  | function name value => cases he

/-- The relocation is for a field of section `home`: it has the width of the field, and counts from
where it stands if the field is a distance. -/
structure Relocation.IsFor (r : Relocation) (home : SectionId) (f : Field) : Prop where
  home : r.home = home
  size : r.size = f.size
  kind : r.kind = .pcRelative ↔ f.kind = .relative

namespace Context

/-- A context goes on from another by what fields add: it is in the same section, mode and file, the
symbols of the other come first, and behind them imports under identifiers that were free and that
one of the fields refers to; the relocations of the other come first, and behind them those of some
of the fields in their order. -/
structure GrowsBy (fields : List Field) (ctx after : Context) : Prop where
  current : after.current = ctx.current
  mode : after.mode = ctx.mode
  file : after.file = ctx.file
  symbols : ∃ names : List String,
    after.symbols.symbols = ctx.symbols.symbols ++ names.map (Symbol.declare · .plain) ∧
      names.Nodup ∧ (∀ name ∈ names, name ∉ ctx.symbols.identifiers) ∧
      ∀ name ∈ names, ∃ f ∈ fields, name ∈ f.expr.references
  relocations : ∃ waiting : List (Field × Relocation),
    after.relocations = ctx.relocations ++ waiting.map Prod.snd ∧
      (waiting.map Prod.fst).Sublist fields ∧
      ∀ p ∈ waiting, p.2.IsFor (ctx.current.getD 0) p.1

namespace GrowsBy

variable {fields more : List Field} {a b c : Context}

theorem refl (fields : List Field) (ctx : Context) : ctx.GrowsBy fields ctx :=
  ⟨rfl, rfl, rfl, ⟨[], by simp, .nil, by simp, by simp⟩, ⟨[], by simp, by simp, by simp⟩⟩

/-- Fields that come after others add behind what those added. -/
theorem trans (hab : a.GrowsBy fields b) (hbc : b.GrowsBy more c) :
    a.GrowsBy (fields ++ more) c := by
  obtain ⟨names, hb, hnodup, hfree, hfields⟩ := hab.symbols
  obtain ⟨names', hc, hnodup', hfree', hmore⟩ := hbc.symbols
  obtain ⟨waiting, hlisted, hsublist, hfor⟩ := hab.relocations
  obtain ⟨waiting', hlisted', hsublist', hfor'⟩ := hbc.relocations
  -- what the later fields found free is neither in the first table nor added since
  have hidentifiers : b.symbols.identifiers = a.symbols.identifiers ++ names := by
    simp [SymbolTable.identifiers, hb, Symbol.declare, Function.comp_def]
  simp only [hidentifiers, List.mem_append, not_or] at hfree'
  refine ⟨hbc.current.trans hab.current, hbc.mode.trans hab.mode, hbc.file.trans hab.file,
    ⟨names ++ names', ?_, ?_, ?_, ?_⟩, ⟨waiting ++ waiting', ?_, ?_, ?_⟩⟩
  · rw [hc, hb, List.map_append, List.append_assoc]
  · refine List.nodup_append.2 ⟨hnodup, hnodup', fun x hx y hy hxy => ?_⟩
    exact (hfree' y hy).2 (hxy ▸ hx)
  · intro name hname
    rcases List.mem_append.1 hname with hname | hname
    · exact hfree name hname
    · exact (hfree' name hname).1
  · intro name hname
    rcases List.mem_append.1 hname with hname | hname
    · obtain ⟨f, hf, href⟩ := hfields name hname
      exact ⟨f, List.mem_append_left more hf, href⟩
    · obtain ⟨f, hf, href⟩ := hmore name hname
      exact ⟨f, List.mem_append_right fields hf, href⟩
  · rw [hlisted', hlisted, List.map_append, appendList_appendList]
  · rw [List.map_append]
    exact hsublist.append hsublist'
  · intro p hp
    rcases List.mem_append.1 hp with hp | hp
    · exact hfor p hp
    · rw [← hab.current]
      exact hfor' p hp

end GrowsBy

end Context

/-! ## Fields -/

namespace Field

variable {f : Field} {ctx after : Context} {address stop v : Word}

/-- An identifier that the table lacks is added when a field waits for it, and nothing else is. -/
theorem resolve_growsBy (hf : f.expr.IsFunctionFree) {value : Value}
    (heval : f.expr.eval ctx = .ok value) {resolved : Resolved}
    (h : value.resolve ctx = .ok resolved after) :
    ctx.GrowsBy [f] after ∧ after.address = ctx.address ∧ after.relocations = ctx.relocations := by
  rw [Value.resolve_apply] at h
  split at h
  · cases h
    exact ⟨.refl _ _, rfl, rfl⟩
  · split at h
    · split at h <;> cases h <;> exact ⟨.refl _ _, rfl, rfl⟩
    · cases h
  next identifier hanchor =>
    cases h
    have hnone := Expr.idOf?_eq_none_of_eval hf heval hanchor
    have hname := Expr.mem_references_of_eval hf heval hanchor
    refine ⟨⟨rfl, rfl, rfl, ⟨[identifier], ?_, by simp, ?_, by simpa using hname⟩,
      ⟨[], by simp [Context.insert], by simp, by simp⟩⟩, rfl, rfl⟩
    · exact congrArg (·.2.symbols)
        (SymbolTable.insert_of_none (s := .declare identifier .plain) hnone)
    · simpa using SymbolTable.idOf?_eq_none_iff.1 hnone

/-- A field adds the import that it waits for, if the table lacks it, and its relocation, if it has
to wait. The cursor stays. -/
theorem settle_growsBy (hf : f.expr.IsFunctionFree)
    (h : f.settle address stop ctx = .ok v after) :
    ctx.GrowsBy [f] after ∧ after.address = ctx.address := by
  obtain ⟨value, resolved, mid, heval, hresolve, hsettled⟩ := settle_eq_ok h
  obtain ⟨hgrows, haddress, hrelocations⟩ := resolve_growsBy hf heval hresolve
  cases resolved with
  | value w =>
    cases hsettled
    exact ⟨hgrows, haddress⟩
  | relocate symbol addend =>
    cases hsettled
    refine ⟨{ hgrows with relocations := ?_ }, haddress⟩
    refine ⟨[(f, f.relocation mid address stop symbol addend)], ?_, by simp, ?_⟩
    · simp [hrelocations]
    · simp only [List.mem_singleton, forall_eq]
      refine ⟨by rw [← hgrows.current]; rfl, rfl, ?_⟩
      unfold relocation
      cases f.kind <;> simp

theorem write_growsBy (hf : f.expr.IsFunctionFree) (address stop : Word)
    (wrap : EvalError → AssemblyError) (s : Emission) :
    s.context.GrowsBy [f] (stateAfter (f.write address stop wrap) s).context ∧
      (stateAfter (f.write address stop wrap) s).context.address = s.context.address := by
  rw [Emit.after_write_context]
  split
  · exact ⟨.refl _ _, rfl⟩
  next hsettle => exact settle_growsBy hf hsettle

end Field

/-- Fields one after the other add what each of them adds, up to the one that fails. -/
theorem Encoded.writeFields_growsBy (e : Encoded) (start stop : Word) {fields : List Field}
    (hfields : ∀ f ∈ fields, f.expr.IsFunctionFree) (written : Nat) (s : Emission) :
    s.context.GrowsBy fields (stateAfter (e.writeFields start stop written fields) s).context ∧
      (stateAfter (e.writeFields start stop written fields) s).context.address =
        s.context.address := by
  induction fields generalizing written s with
  | nil => exact ⟨.refl _ _, rfl⟩
  | cons f fields ih =>
    obtain ⟨hfirst, haddress⟩ := Field.write_growsBy (hfields f List.mem_cons_self)
      (start + .ofNat written) stop (e.fieldError f) s
    rw [writeFields]
    cases hrun : f.write (start + .ofNat written) stop (e.fieldError f) s with
    | error err t =>
      rw [stateAfter_of_error hrun] at hfirst haddress
      rw [stateAfter_bind_of_error hrun]
      exact ⟨hfirst.trans (.refl fields _), haddress⟩
    | ok count t =>
      rw [stateAfter_of_ok hrun] at hfirst haddress
      rw [stateAfter_bind_of_ok hrun]
      obtain ⟨hrest, haddress'⟩ :=
        ih (fun g hg => hfields g (List.mem_cons_of_mem f hg)) (written + count) t
      exact ⟨hfirst.trans hrest, haddress'.trans haddress⟩

/-! ## Items -/

namespace Item

/-- Writing an item adds what its fields add, and leaves the cursor where it is. -/
theorem write_growsBy {item : Item} (hitem : item.IsFunctionFree) (start stop : Word)
    (s : Emission) :
    s.context.GrowsBy item.fields (stateAfter (item.write start stop) s).context ∧
      (stateAfter (item.write start stop) s).context.address = s.context.address := by
  cases item with
  | raw run =>
    rw [write, Emit.after_put_context]
    exact ⟨.refl _ _, rfl⟩
  | reserve count =>
    rw [write, Emit.after_put_context]
    exact ⟨.refl _ _, rfl⟩
  | data field => exact Field.write_growsBy hitem start stop _ s
  | instruction encoded =>
    have hput := Emit.after_put_context (.literal encoded.bytes) s
    rw [write]
    cases hrun : Emit.put (.literal encoded.bytes) s with
    | error err t =>
      rw [stateAfter_of_error hrun] at hput
      rw [stateAfter_bind_of_error hrun, hput]
      exact ⟨.refl _ _, rfl⟩
    | ok count t =>
      rw [stateAfter_of_ok hrun] at hput
      rw [stateAfter_bind_of_ok hrun, ← hput]
      exact encoded.writeFields_growsBy start stop hitem count t

/-- Writing an item only adds to the tables, in every context and whatever the sink does: imports
under free identifiers that its fields refer to, and at most one relocation for each field. The
cursor stays where it was if something fails, and otherwise moves by the item's length, which is the
number of bytes that are counted. -/
theorem emit_only_adds {item : Item} (hitem : item.IsFunctionFree) (s : Emission) :
    match item.emit s with
    | .error _ t =>
      s.context.GrowsBy item.fields t.context ∧ t.context.address = s.context.address
    | .ok n t =>
      s.context.GrowsBy item.fields t.context ∧ n = item.length ∧
        t.context.address = s.context.address + .ofNat item.length := by
  obtain ⟨hgrows, haddress⟩ :=
    write_growsBy hitem s.context.address (s.context.address + .ofNat item.length) s
  rw [emit_apply]
  cases hrun : item.write s.context.address (s.context.address + .ofNat item.length) s with
  | error err t =>
    rw [stateAfter_of_error hrun] at hgrows haddress
    exact ⟨hgrows, haddress⟩
  | ok n t =>
    rw [stateAfter_of_ok hrun] at hgrows
    obtain ⟨rfl, -⟩ := write_writes hrun
    -- `GrowsBy` does not look at the cursor, which moves last
    exact ⟨⟨hgrows.current, hgrows.mode, hgrows.file, hgrows.symbols, hgrows.relocations⟩, rfl, rfl⟩

/-- An instruction with two fields that wait for imports. -/
def storeLimit : Item :=
  .instruction ⟨"mov", [0xc7, 0x05], [.absolute (.reference "table") .bit32,
    .absolute (.binary .sub (.reference "limit") (.constant 1)) .bit32]⟩

/-- A sink that is full in the second field: both fields are in the tables, and the cursor stays. -/
theorem emit_only_adds_shortSink :
    storeLimit.IsFunctionFree ∧
      ∃ t, storeLimit.emit ⟨.new .bit32, Sink.new (some 7)⟩ = .error .sinkFull t ∧
        (Context.new .bit32).GrowsBy storeLimit.fields t.context ∧ t.context.address = 0 ∧
        t.context.symbols.identifiers = ["table", "limit"] ∧ t.context.relocations.size = 2 := by
  have hfree : storeLimit.IsFunctionFree := by
    simp [storeLimit, IsFunctionFree, Field.absolute, Expr.IsFunctionFree]
  obtain ⟨t, ht, hidentifiers, hsize⟩ : ∃ t,
      storeLimit.emit ⟨.new .bit32, Sink.new (some 7)⟩ = .error .sinkFull t ∧
      t.context.symbols.identifiers = ["table", "limit"] ∧ t.context.relocations.size = 2 :=
    ⟨_, rfl, by decide, by decide⟩
  have hadds := emit_only_adds hfree ⟨.new .bit32, .new (some 7)⟩
  rw [ht] at hadds
  exact ⟨hfree, t, ht, hadds.1, hadds.2, hidentifiers, hsize⟩

end Item

end Assembler
