import Assembler.Proofs.Retry

/-!
# Images without placeholders

A field that waits for an import is written as zero and listed for relocation. A container that
cannot name imports has no use for such a field, but it is asked only when everything is written,
and only about the kinds of symbols. What makes this enough are two facts about the tables:
an import is of one of the two kinds that a container asks about, and every relocation waits for
an import (`Context.IsAccounted`). They hold after any calls of the two passes, whatever the values
of function nodes are (`ObjectFile.Called.isReady`).

Main statement: `ObjectFile.image_without_placeholders`.
-/

namespace Assembler

/-! ## Imports are accounted for -/

/-- Every import is declared as one or was only referred to, and every relocation waits for
an import. -/
structure Context.IsAccounted (ctx : Context) : Prop where
  kind : ∀ s ∈ ctx.symbols.symbols, s.isImport → s.kind = .imported ∨ s.kind = .plain
  target : ∀ r ∈ ctx.relocations, ∃ s, ctx.symbols.get? r.target = some s ∧ s.isImport

namespace Context

variable {ctx after : Context}

theorem IsAccounted.of_tables (h : ctx.IsAccounted) (hsymbols : after.symbols = ctx.symbols)
    (hrelocations : after.relocations = ctx.relocations) : after.IsAccounted := by
  refine ⟨?_, ?_⟩
  · rw [hsymbols]
    exact h.kind
  · rw [hsymbols, hrelocations]
    exact h.target

/-- A symbol keeps the tables accounted for, if it takes no place of an import or is one. -/
theorem IsAccounted.withSymbol (h : ctx.IsAccounted) {s : Symbol}
    (hkind : s.isImport → s.kind = .imported ∨ s.kind = .plain)
    (hplace : ctx.relocations = #[] ∨ s.isImport) : (ctx.withSymbol s).IsAccounted := by
  constructor
  · intro u hu
    rcases SymbolTable.mem_of_mem_insert hu with rfl | hu
    · exact hkind
    · exact h.kind u hu
  · intro r hr
    rcases hplace with hempty | himport
    · have hr : r ∈ ctx.relocations := hr
      rw [hempty] at hr
      simp at hr
    · obtain ⟨u, hu, hwaits⟩ := h.target r hr
      rcases SymbolTable.get?_insert_cases (s := s) hu with hkept | htaken
      · exact ⟨u, hkept, hwaits⟩
      · exact ⟨s, htaken, himport⟩

/-- What a value has to wait for is an import. -/
theorem IsAccounted.resolve (h : ctx.IsAccounted) {v : Value} {resolved : Resolved}
    (hr : v.resolve ctx = .ok resolved after) :
    after.IsAccounted ∧ ∀ id addend, resolved = .relocate id addend →
      ∃ s, after.symbols.get? id = some s ∧ s.isImport := by
  rw [Value.resolve_apply] at hr
  split at hr
  · cases hr
    exact ⟨h, nofun⟩
  next id _ =>
    split at hr
    next s hs =>
      split at hr
      next himport =>
        cases hr
        refine ⟨h, ?_⟩
        rintro _ _ ⟨⟩
        exact ⟨s, hs, himport⟩
      · cases hr
        exact ⟨h, nofun⟩
    · cases hr
  next identifier _ =>
    cases hr
    refine ⟨h.withSymbol (fun _ => .inr rfl) (.inr rfl), ?_⟩
    rintro _ _ ⟨⟩
    exact ⟨_, SymbolTable.get?_insert_self _ _, rfl⟩

end Context

/-- Settling a field keeps the tables accounted for: what it lists waits for an import. -/
theorem Field.settle_isAccounted {f : Field} {ctx after : Context} {address stop v : Word}
    (h : f.settle address stop ctx = .ok v after) (hctx : ctx.IsAccounted) :
    after.IsAccounted := by
  obtain ⟨value, resolved, mid, -, hresolve, hsettled⟩ := settle_eq_ok h
  obtain ⟨hmid, htarget⟩ := hctx.resolve hresolve
  cases resolved with
  | value w =>
    cases hsettled
    exact hmid
  | relocate id addend =>
    cases hsettled
    refine ⟨hmid.kind, fun r hr => ?_⟩
    rcases Array.mem_push.1 hr with hr | rfl
    · exact hmid.target r hr
    · exact htarget id addend rfl

theorem Emit.closed_isAccounted (N : Nat) :
    Closed N (fun _ => True) (Keeps fun ctx after => ctx.IsAccounted → after.IsAccounted) :=
  closed_keeps (fun _ => id) (fun hab hbc h => hbc (hab h)) (fun _ _ h => h.of_tables rfl rfl)
    (fun _ _ _ _ h => h.of_tables rfl rfl) (fun _ => Field.settle_isAccounted)

/-! ## The first pass -/

namespace Statement

/-- In a section, only an external stands for an import. -/
theorem kind_of_symbolIn? {leaf : Statement} {ctx : Context} {k : SectionId} {s : Symbol}
    (hs : leaf.symbolIn? ctx = some s) (hcurrent : ctx.current = some k) (himport : s.isImport) :
    s.kind = .imported := by
  cases leaf with
  | label identifier kind =>
    cases hs
    simp [Symbol.isImport, hcurrent] at himport
  | define identifier expr kind =>
    simp only [symbolIn?, Option.bind_eq_bind, Option.bind_eq_some_iff] at hs
    obtain ⟨v, -, hs⟩ := hs
    split at hs
    · cases hs
      simp [Symbol.isImport] at himport
    · obtain ⟨home, -, rfl⟩ := Option.map_eq_some_iff.1 hs
      simp [Symbol.isImport] at himport
    · cases hs
  | external identifier =>
    cases hs
    rfl
  | _ => cases hs

/-- Leaves of a section keep the tables accounted for. -/
theorem constructAll_isAccounted {l : List Statement} (hl : ∀ leaf ∈ l, leaf.IsLeaf)
    {ctx after : Context} {items : List Item} (h : constructAll l ctx = .ok items after)
    {k : SectionId} (hcurrent : ctx.current = some k) (hempty : ctx.relocations = #[])
    (hctx : ctx.IsAccounted) : after.IsAccounted := by
  refine (constructAll_keeps
    (P := fun ctx => ctx.current = some k ∧ ctx.relocations = #[] ∧ ctx.IsAccounted) hl
    (fun _ _ hctx => ⟨hctx.1, hctx.2.1, hctx.2.2.of_tables rfl rfl⟩)
    (fun leaf _ ctx after items hplace hctx => ?_) h ⟨hcurrent, hempty, hctx⟩).2.2
  obtain ⟨-, rfl⟩ | ⟨_, s, -, -, hs, -, rfl⟩ := place_eq_ok hplace
  · exact hctx
  · obtain ⟨hin, hnone, haccounted⟩ := hctx
    have hkind : s.isImport → s.kind = .imported ∨ s.kind = .plain :=
      fun himport => .inl (kind_of_symbolIn? hs hin himport)
    exact ⟨hin, hnone, haccounted.withSymbol hkind (.inl hnone)⟩

end Statement

namespace ObjectFile

/-- Sections that are laid out keep the tables accounted for. -/
theorem constructSections_isAccounted {l : List Section} {id : Nat} {stop : Word}
    {ctx after : Context} {placed : List PlacedSection}
    (h : constructSections id stop [] ctx l = (.ok (), after, placed))
    (hempty : ctx.relocations = #[]) (hctx : ctx.IsAccounted) : after.IsAccounted := by
  induction l generalizing id stop ctx placed with
  | nil =>
    cases h
    exact hctx
  | cons s l ih =>
    obtain ⟨p, next, rest, hp, hrest, rfl⟩ := constructSections_cons_eq_ok.1 h
    obtain ⟨-, hitems, -⟩ := Section.construct_ok hp
    have hleaves := Statement.isLeaf_of_mem_allLeaves s.contents
    have hopen : (ctx.openSection id p.start).2.IsAccounted := by
      have hentered : (ctx.enterSection id p.start).IsAccounted := hctx.of_tables rfl rfl
      exact hentered.withSymbol (s := Context.startSymbol ctx.file id p.start) nofun (.inl hempty)
    refine ih hrest ?_ (Statement.constructAll_isAccounted hleaves hitems rfl hempty hopen)
    exact (Statement.constructAll_relocations hleaves hitems).trans hempty

theorem isAccounted_of_construct {obj built : ObjectFile} (h : obj.construct = (.ok (), built)) :
    built.context.IsAccounted := by
  have hnew : (Context.new obj.context.mode).IsAccounted := ⟨nofun, by simp [Context.new]⟩
  exact constructSections_isAccounted (construct_ok h).1 rfl hnew

end ObjectFile

/-! ## Fields that are resolved -/

namespace Field

/-- The number that the expression of a field stands for, unless it has to wait for a symbol. -/
def value? (f : Field) (ctx : Context) : Option Word :=
  match f.expr.eval ctx with
  | .error _ => none
  | .ok v =>
    match v.resolve ctx with
    | .ok (.value w) _ => some w
    | _ => none

/-- The bytes of a field whose number is known, where distances count from `stop`. -/
def valueBytes (f : Field) (ctx : Context) (stop : Word) : List UInt8 :=
  (f.number stop ((f.value? ctx).getD 0)).leBytes f.size

/-- A field that is not listed is written with its value. -/
theorem write_resolved {f : Field} {address stop : Word} {wrap : EvalError → AssemblyError}
    {s t : Emission} {n : Nat} (h : f.write address stop wrap s = .ok n t)
    (hnone : t.context.relocations = s.context.relocations) :
    t.context = s.context ∧ (f.value? s.context).isSome ∧
      Emit.Writes (f.write address stop wrap) s n t (f.valueBytes s.context stop) := by
  obtain ⟨-, number, hsettle, hwrites⟩ := write_writes h
  obtain ⟨v, resolved, mid, heval, hresolve, hsettled⟩ := settle_eq_ok hsettle
  cases resolved with
  | relocate id addend =>
    obtain ⟨-, hafter⟩ := Prod.mk.inj hsettled
    have hmid := (Context.resolve_relocations hresolve).2.2
    rw [← hafter] at hnone
    simp [hmid] at hnone
  | value w =>
    obtain ⟨hnumber, hafter⟩ := Prod.mk.inj hsettled
    have hsame := Context.eq_of_resolve_value hresolve
    have hvalue : f.value? s.context = some w := by simp [value?, heval, hresolve]
    refine ⟨hafter.symm.trans hsame, by rw [hvalue]; rfl, ?_⟩
    rw [valueBytes, hvalue, Option.getD_some, hnumber]
    exact hwrites

end Field

/-- Fields that list nothing have values, and write these. -/
theorem Encoded.writeFields_resolved {e : Encoded} {start stop : Word} {fields : List Field}
    {written n : Nat} {s t : Emission} (h : e.writeFields start stop written fields s = .ok n t)
    (hnone : t.context.relocations = s.context.relocations) :
    (∀ f ∈ fields, (f.value? s.context).isSome) ∧
      Emit.Writes (e.writeFields start stop written fields) s n t
        (fields.flatMap fun f => f.valueBytes s.context stop) := by
  induction fields generalizing written s with
  | nil =>
    cases h
    exact ⟨nofun, .pure _ _⟩
  | cons f fields ih =>
    rw [writeFields, bind_eq_ok] at h
    obtain ⟨count, u, hf, hrest⟩ := h
    have hfirst := ((Emit.closed_lists 0).write f _ stop (e.fieldError f) trivial).of_ok hf
    have hlater :=
      ((Emit.closed_lists 0).writeFields e start stop (fun _ _ => trivial) _).of_ok hrest
    obtain ⟨hu, ht⟩ := hfirst.of_trans hlater hnone
    obtain ⟨hsame, hvalue, hw⟩ := Field.write_resolved hf hu
    -- nothing was listed, and the rest finds the context as it was
    obtain ⟨hvalues, hw'⟩ := ih hrest ht
    rw [hsame] at hvalues hw'
    refine ⟨List.forall_mem_cons.2 ⟨hvalue, hvalues⟩, ?_⟩
    rw [writeFields, List.flatMap_cons]
    exact hw.bind hw'

namespace Item

/-- The bytes of an item before its fields. -/
def fixedBytes : Item → List UInt8
  | .raw run => run.toList
  | .reserve count => List.replicate count 0
  | .data _ => []
  | .instruction encoded => encoded.bytes

/-- The bytes of an item whose fields have known numbers. -/
def valueBytes (item : Item) (ctx : Context) (stop : Word) : List UInt8 :=
  item.fixedBytes ++ item.fields.flatMap fun f => f.valueBytes ctx stop

/-- An item with no field listed is written with the values of its fields. -/
theorem write_resolved {item : Item} {start stop : Word} {s t : Emission} {n : Nat}
    (h : item.write start stop s = .ok n t)
    (hnone : t.context.relocations = s.context.relocations) :
    (∀ f ∈ item.fields, (f.value? s.context).isSome) ∧
      Emit.Writes (item.write start stop) s n t (item.valueBytes s.context stop) := by
  cases item with
  | raw run =>
    have hbytes : (raw run).valueBytes s.context stop = run.toList := List.append_nil _
    rw [hbytes]
    exact ⟨nofun, Emit.put_writes h⟩
  | reserve count =>
    have hbytes : (reserve count).valueBytes s.context stop = List.replicate count 0 :=
      List.append_nil _
    rw [hbytes]
    exact ⟨nofun, Emit.put_writes h⟩
  | data field =>
    obtain ⟨-, hvalue, hw⟩ := Field.write_resolved h hnone
    have hbytes : (data field).valueBytes s.context stop = field.valueBytes s.context stop := by
      simp [valueBytes, fixedBytes, fields]
    rw [hbytes]
    exact ⟨by simpa [fields] using hvalue, hw⟩
  | instruction encoded =>
    rw [write, bind_eq_ok] at h
    obtain ⟨count, u, hput, hfields⟩ := h
    have hsame : u.context = s.context := (Emit.put_eq_ok.1 hput).2.1
    obtain ⟨hvalues, hw⟩ := Encoded.writeFields_resolved hfields (by rw [hnone, hsame])
    rw [hsame] at hvalues hw
    exact ⟨hvalues, (Emit.put_writes hput).bind hw⟩

theorem emit_resolved {item : Item} {s t : Emission} {n : Nat} (h : item.emit s = .ok n t)
    (hnone : t.context.relocations = s.context.relocations) :
    (∀ f ∈ item.fields, (f.value? s.context).isSome) ∧
      Emit.output item.emit s.context =
        item.valueBytes s.context (s.context.address + .ofNat item.length) := by
  obtain ⟨u, hwrite, rfl⟩ := emit_eq_ok.1 h
  obtain ⟨hvalues, hw⟩ := write_resolved hwrite hnone
  exact ⟨hvalues, (writes_emit hw).output⟩

end Item

/-! ## Items of a run -/

namespace ObjectFile

section Reaches

variable {obj : ObjectFile} (hobj : obj.IsLaidOut) {sink : Sink} {n : Nat} {t : Emission}
  (hrun : obj.run ⟨obj.context.reset, sink⟩ = .ok n t) {k i : Nat} {item : Item} {st : Emission}
  (hreach : obj.Reaches sink k i item st)
include hobj hrun hreach

/-- A run that succeeds writes every item that it comes to. -/
theorem Reaches.emit_ok :
    ∃ m u, item.emit st = .ok m u ∧ u.context.Lists t.context := by
  obtain ⟨s, p, n₀, mid, m, hk, hi, hbefore, hat⟩ := hreach
  rw [run, emitSections_at hk, bind_eq_ok] at hrun
  obtain ⟨n₁, mid₁, hbefore₁, hrun⟩ := hrun
  rw [hbefore] at hbefore₁
  cases hbefore₁
  obtain ⟨count, after, hsection, hrest⟩ := bind_eq_ok.1 hrun
  rw [Section.emit_apply (hobj.filled_of_mem_zip (s, p) (List.mem_of_getElem? hk))] at hsection
  split at hsection
  · cases hsection
  next total v hwritten =>
    obtain ⟨gap, u₀, henter, hitems⟩ := bind_eq_ok.1 hat
    obtain ⟨gap', u₀', henter', hwritten⟩ := bind_eq_ok.1 hwritten
    rw [henter] at henter'
    cases henter'
    rw [Item.emitFrom_at hi, bind_eq_ok] at hwritten
    obtain ⟨m', st', hitems', hwritten⟩ := hwritten
    rw [hitems] at hitems'
    cases hitems'
    obtain ⟨c, u, hitem, hlater⟩ := bind_eq_ok.1 hwritten
    refine ⟨c, u, hitem, ?_⟩
    -- what follows in the section, and then the sections behind it
    have hitems := ((Emit.closed_lists 0).emitFrom (fun _ _ _ _ => trivial) _).of_ok hlater
    cases hsection
    have hleave : (s.leave mid v).context = v.context := by
      unfold Section.leave
      split <;> rfl
    have hsections := ((Emit.closed_lists _).emitSections (fun _ _ _ _ _ _ => trivial)
      (Nat.le_refl _) _ _).of_ok hrest
    rw [hleave] at hsections
    exact hitems.trans hsections

/-- An item of the image stands in what the run hands over, behind the sections and the items
before it. -/
theorem Reaches.exists_push {s : Section} {p : PlacedSection} (hs : obj.sections[k]? = some s)
    (hloaded : s.kind ≠ .bss) (hp : obj.placed[k]? = some p) :
    ∃ before after,
      before.length = imageStart none (obj.sections.zip obj.placed) k +
        totalLength (p.items.take i) ∧
      t.sink = sink.push (before ++ Emit.output item.emit st.context ++ after) := by
  obtain ⟨s', p', n₀, mid, m, hk, hi, hbefore, hat⟩ := hreach
  obtain ⟨hs', hp'⟩ : obj.sections[k]? = some s' ∧ obj.placed[k]? = some p' :=
    List.getElem?_zip_eq_some.1 hk
  rw [hs', Option.some.injEq] at hs
  rw [hp', Option.some.injEq] at hp
  subst hs hp
  obtain ⟨pre, mid₁, count, u, post, hbefore₁, hsection, hcut⟩ :=
    emitSections_writes_at hobj.filled_of_mem_zip hk hrun
  have hstart := emitSections_imageStart hobj.filled_of_mem_zip hk hbefore₁
  rw [hbefore] at hbefore₁
  cases hbefore₁
  have hfilled : p'.IsFilled := hobj.filled_of_mem_zip (s', p') (List.mem_of_getElem? hk)
  obtain ⟨m', st', before, after, hat', hlength, -, hown⟩ :=
    Section.emit_writes_at hloaded hfilled hi hsection
  rw [hat] at hat'
  cases hat'
  refine ⟨pre ++ before, after ++ post, ?_, ?_⟩
  · rw [List.length_append, hlength]
    omega
  · rw [(hcut _ hown).sink]
    simp only [List.append_assoc]

end Reaches

end ObjectFile

/-! ## Calls of the passes -/

namespace Container

variable {c : Container}

theorem symbolFault?_of_check {t : SymbolTable} {sections : List Section}
    (h : c.check t sections = .ok ()) : ∀ s ∈ t.symbols, c.symbolFault? s = none := by
  unfold check at h
  split at h
  · cases h
  next hnone => exact List.findSome?_eq_none_iff.1 (Option.or_eq_none_iff.1 hnone).1

/-- A container without imports refuses every import that it is told of. -/
theorem isImport_of_symbolFault? (hc : c.importsSymbols = false) {s : Symbol}
    (hkind : s.isImport → s.kind = .imported ∨ s.kind = .plain) (h : c.symbolFault? s = none) :
    s.isImport = false := by
  cases himport : s.isImport with
  | false => rfl
  | true =>
    rcases hkind himport with hkind | hkind <;> simp [symbolFault?, hkind, hc, himport] at h

end Container

namespace ObjectFile

/-- What calls of the two passes make of an object file. -/
inductive Called (obj : ObjectFile) : ObjectFile → Prop
  | none : Called obj obj
  | construct {cur : ObjectFile} (h : Called obj cur) : Called obj cur.construct.2
  | emit {cur : ObjectFile} (sink : Sink) (h : Called obj cur) : Called obj (cur.emit sink).2.1

/-- The second pass can only follow a first one, and then the tables are accounted for. -/
structure IsReady (obj cur : ObjectFile) : Prop where
  container : cur.container = obj.container
  laidOut : cur.stage = .constructed → cur.IsLaidOut
  accounted : cur.stage = .constructed → cur.context.IsAccounted

variable {obj cur : ObjectFile}

/-- A first pass leaves a table that is accounted for, or does not let a second one follow. -/
theorem IsReady.construct (h : obj.IsReady cur) : obj.IsReady cur.construct.2 := by
  cases hresult : cur.construct.1 with
  | ok u =>
    have hok : cur.construct = (.ok (), cur.construct.2) := Prod.ext hresult rfl
    exact ⟨(construct_ok hok).2.2.2.trans h.container, fun _ => .of_construct hok,
      fun _ => isAccounted_of_construct hok⟩
  | error e =>
    by_cases hfresh : cur.stage = .fresh
    · have hnot : cur.construct.2.stage ≠ .constructed := by
        simp [stage_construct_of_error hfresh hresult]
      have hcontainer : cur.construct.2.container = cur.container := by
        rw [construct_of_fresh hfresh]
      exact ⟨hcontainer.trans h.container, fun hs => absurd hs hnot, fun hs => absurd hs hnot⟩
    · rw [construct_of_ne_fresh hfresh]
      exact h

/-- A second pass that fails leaves a table that is accounted for, and after one that succeeds there
is no other. -/
theorem IsReady.emit (h : obj.IsReady cur) (sink : Sink) : obj.IsReady (cur.emit sink).2.1 := by
  by_cases hstage : cur.stage = .constructed
  · have hlaid := h.laidOut hstage
    have hkeeps := of_closed cur (Emit.closed_isAccounted _) (fun _ _ _ _ _ _ => trivial)
    rcases emit_object hlaid.stage sink with ⟨e, s, hrun, hafter⟩ | ⟨n, s, -, hafter⟩
    · rw [hafter]
      refine ⟨h.container, fun _ => ⟨hlaid.stage, hlaid.length, hlaid.filled⟩, fun _ => ?_⟩
      have haccounted := hkeeps ⟨cur.context.reset, sink⟩ ((h.accounted hstage).of_tables rfl rfl)
      rwa [stateAfter_of_error hrun] at haccounted
    · rw [hafter]
      exact ⟨h.container, nofun, nofun⟩
  · rw [emit_of_ne_constructed hstage]
    exact h

theorem Called.isReady (hfresh : obj.stage = .fresh) (h : obj.Called cur) : obj.IsReady cur := by
  induction h with
  | none =>
    have hnot : obj.stage ≠ .constructed := by simp [hfresh]
    exact ⟨rfl, fun hstage => absurd hstage hnot, fun hstage => absurd hstage hnot⟩
  | construct h ih => exact ih.construct
  | emit sink h ih => exact ih.emit sink

/-- A container without imports takes no image with a placeholder. Whatever calls of the passes came
before, and whatever the function nodes in the program give: an image that comes through lists no
relocation, leaves no import in the table, and has in the place of every field the bytes of a number
that was known when the field was written. The place of an item is behind the sections before its
own, the gap before that, and the items before it. -/
theorem image_without_placeholders {final : ObjectFile} {sink out : Sink} {n : Nat}
    (hfresh : obj.stage = .fresh) (himports : obj.container.importsSymbols = false)
    (hcalled : obj.Called cur) (hemit : cur.emit sink = (.ok n, final, out)) :
    final.context.relocations = #[] ∧
      (∀ s ∈ final.context.symbols.symbols, s.isImport = false) ∧
      ∀ k s p i item, cur.sections[k]? = some s → s.kind ≠ .bss → cur.placed[k]? = some p →
        p.items[i]? = some item →
        ∃ st before after, cur.Reaches sink k i item st ∧
          (∀ f ∈ item.fields, ∃ w, f.value? st.context = some w) ∧
          before.length = imageStart none (cur.sections.zip cur.placed) k +
            totalLength (p.items.take i) ∧
          out = sink.push (before ++
            item.valueBytes st.context (st.context.address + .ofNat item.length) ++ after) := by
  have hready := hcalled.isReady hfresh
  have hstage : cur.stage = .constructed := by
    refine Decidable.by_contra fun hstage => ?_
    rw [emit_of_ne_constructed hstage] at hemit
    cases hemit
  have hlaid := hready.laidOut hstage
  obtain ⟨t, hrun, hcheck, rfl, rfl⟩ := (emit_eq_ok hlaid).1 hemit
  replace hrun : cur.run ⟨cur.context.reset, sink⟩ = .ok n t := hrun
  have haccounted : t.context.IsAccounted :=
    (of_closed cur (Emit.closed_isAccounted _) fun _ _ _ _ _ _ => trivial).of_ok hrun
      ((hready.accounted hstage).of_tables rfl rfl)
  have hnoImport : ∀ s ∈ t.context.symbols.symbols, s.isImport = false := fun s hs =>
    Container.isImport_of_symbolFault? (hready.container ▸ himports) (haccounted.kind s hs)
      (Container.symbolFault?_of_check hcheck s hs)
  have hempty : t.context.relocations = #[] := by
    apply Array.eq_empty_iff_forall_not_mem.2
    intro r hr
    obtain ⟨s, hs, himport⟩ := haccounted.target r hr
    rw [hnoImport s (List.mem_of_getElem? hs)] at himport
    cases himport
  refine ⟨hempty, hnoImport, ?_⟩
  intro k s p i item hs hloaded hp hi
  obtain ⟨st, hreach⟩ := exists_reaches hlaid (by rw [hemit]) hp hi
  obtain ⟨m, u, hitem, hlists⟩ := hreach.emit_ok hlaid hrun
  have hnone : u.context.relocations = st.context.relocations := by
    have hown := ((Emit.closed_lists 0).itemEmit (fun _ _ => trivial)).of_ok hitem
    obtain ⟨own, hu⟩ := hown.relocations
    obtain ⟨rest, ht⟩ := hlists.relocations
    have hafter := (Array.append_eq_empty_iff.1 (ht.symm.trans hempty)).1
    rw [hafter, (Array.append_eq_empty_iff.1 (hu.symm.trans hafter)).1]
  obtain ⟨hvalues, hbytes⟩ := Item.emit_resolved hitem hnone
  obtain ⟨before, after, hlength, hpush⟩ := hreach.exists_push hlaid hrun hs hloaded hp
  refine ⟨st, before, after, hreach, fun f hf => Option.isSome_iff_exists.1 (hvalues f hf),
    hlength, ?_⟩
  rw [hpush, hbytes]

/-- A function node and a label, each in two bytes. -/
def labelAndFunction : ObjectFile :=
  (ObjectFile.new .bit32 .flat).addSection
    { Section.new "data" .data with address := some 0x1234, contents :=
        [.label "here" .internal,
          .data (.values .bit16
            [.function "seven" fun _ => .ok (.absolute 7), .reference "here"])] }

/-- The label comes through behind the number of the function node, after a try that failed on a
full sink. -/
theorem image_without_placeholders_labelAndFunction :
    ∃ again final out st before after,
      labelAndFunction.construct.1 = .ok () ∧
      again = (labelAndFunction.construct.2.emit (.new (some 3))).2.1 ∧
      again.emit (.new none) = (.ok 4, final, out) ∧ final.context.relocations = #[] ∧
      again.Reaches (.new none) 0 1 (.data (.absolute (.reference "here") .bit16)) st ∧
      List.length before = 2 ∧ out = Sink.push (.new none) (before ++ [0x34, 0x12] ++ after) := by
  have hconstruct : labelAndFunction.construct.1 = .ok () := eq_ok_of_toOption (by decide +kernel)
  have hcalled : labelAndFunction.Called
      (labelAndFunction.construct.2.emit (.new (some 3))).2.1 := .emit _ (.construct .none)
  have hemit :
      ((labelAndFunction.construct.2.emit (.new (some 3))).2.1.emit (.new none)).1 = .ok 4 :=
    eq_ok_of_toOption (by decide +kernel)
  obtain ⟨hempty, -, himage⟩ :=
    image_without_placeholders rfl rfl hcalled (Prod.ext hemit rfl)
  obtain ⟨st, before, after, hreach, -, hbefore, hout⟩ :=
    himage 0 _ _ 1 (.data (.absolute (.reference "here") .bit16)) rfl (by decide) rfl rfl
  refine ⟨_, _, _, st, before, after, hconstruct, rfl, Prod.ext hemit rfl, hempty, hreach,
    hbefore, ?_⟩
  rw [hout]
  obtain ⟨s, p, m, mid, count, hk, -, hbefore, hat⟩ := hreach
  cases hk
  cases hbefore
  cases hat
  rfl

end ObjectFile

end Assembler
