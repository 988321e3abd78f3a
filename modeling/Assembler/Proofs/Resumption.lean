import Assembler.Proofs.Imports
import Assembler.Proofs.Relocation
import Assembler.Proofs.SecondPass

/-!
# Runs that come after another

A run of the second pass that fails leaves relocations and imports behind. A run over the same items
that starts with them does what it does without them: up to where the first one stopped its imports
are listed already, and from there on it is on its own.

* `Emit.Closed`: a property of the steps of the second pass passes to the whole of it.
* `Emit.Keeps`: contexts before and after a step, also if it fails. `Context.Lists` holds for all
  expressions, `Context.StaysOpen` for those that are spelled out.
* `Emit.Resumable`: a step does the same after a run that stopped before, in or behind it.
-/

namespace Assembler

/-! ## What the second pass is made of -/

/-- The fields of an item. -/
def Item.fields : Item → List Field
  | .data field => [field]
  | .instruction encoded => encoded.fields
  | _ => []

theorem Item.IsFunctionFree.of_mem_fields {item : Item} (h : item.IsFunctionFree) :
    ∀ f ∈ item.fields, f.expr.IsFunctionFree := by
  cases item with
  | raw | reserve => exact fun f hf => nomatch hf
  | data field =>
    intro f hf
    obtain rfl := List.mem_singleton.1 hf
    exact h
  | instruction encoded => exact h

namespace Emit

/-- A property of steps that the steps of the second pass have, if the sections that it enters come
before `N` and the expressions that it evaluates are in `P`, and that passes from steps to a run. -/
structure Closed (N : Nat) (P : Expr → Prop) (Q : {α : Type} → Emit α → Prop) : Prop where
  pure : ∀ {α : Type} (a : α), Q (Pure.pure a)
  throw : ∀ {α : Type} (e : AssemblyError), Q (throw e : Emit α)
  bind : ∀ {α β : Type} {m : Emit α} {f : α → Emit β}, Q m → (∀ a, Q (f a)) → Q (m >>= f)
  cursor : ∀ {α : Type} {m : Emit α} {f : Word → Emit α}, (∀ s, m s = f s.context.address s) →
    (∀ address, Q (f address)) → Q m
  put : ∀ run, Q (put run)
  write : ∀ (f : Field) (address stop : Word) (wrap : EvalError → AssemblyError), P f.expr →
    Q (f.write address stop wrap)
  move : ∀ address : Word,
    Q (modify fun s => { s with context := { s.context with address := address } })
  enter : ∀ id < N, ∀ start : Word,
    Q (modify fun s => { s with context := s.context.enterSection id start })
  discarding : ∀ {α : Type} {m : Emit α}, Q m → Q (discarding m)

namespace Closed

variable {N : Nat} {P : Expr → Prop} {Q : {α : Type} → Emit α → Prop} (h : Closed N P Q)
include h

theorem writeFields (e : Encoded) (start stop : Word) {fields : List Field}
    (hfields : ∀ f ∈ fields, P f.expr) (written : Nat) :
    Q (e.writeFields start stop written fields) := by
  induction fields generalizing written with
  | nil => exact h.pure written
  | cons f fields ih =>
    rw [Encoded.writeFields]
    refine h.bind (h.write f _ _ _ (hfields f List.mem_cons_self)) fun count => ?_
    exact ih (fun g hg => hfields g (List.mem_cons_of_mem f hg)) _

theorem itemWrite {item : Item} (hitem : ∀ f ∈ item.fields, P f.expr) (start stop : Word) :
    Q (item.write start stop) := by
  cases item with
  | raw run => exact h.put run
  | reserve count => exact h.put _
  | data field => exact h.write field _ _ _ (hitem field List.mem_cons_self)
  | instruction encoded =>
    exact h.bind (h.put _) fun count => h.writeFields encoded start stop hitem count

theorem itemEmit {item : Item} (hitem : ∀ f ∈ item.fields, P f.expr) : Q item.emit := by
  refine h.cursor (f := fun start => do
    let written ← item.write start (start + .ofNat item.length)
    modify fun s => { s with context :=
      { s.context with address := start + .ofNat item.length } }
    return written) (fun s => ?_) fun start => ?_
  · rw [Item.emit_apply, bind_apply]
    cases item.write s.context.address (s.context.address + .ofNat item.length) s <;> rfl
  · refine h.bind (h.itemWrite hitem _ _) fun written => ?_
    exact h.bind (h.move _) fun _ => h.pure written

theorem emitFrom {items : List Item} (hitems : ∀ item ∈ items, ∀ f ∈ item.fields, P f.expr)
    (count : Nat) : Q (Item.emitFrom count items) := by
  induction items generalizing count with
  | nil => exact h.pure count
  | cons item items ih =>
    rw [Item.emitFrom_cons]
    refine h.bind (h.itemEmit (hitems item List.mem_cons_self)) fun n => ?_
    exact ih (fun x hx => hitems x (List.mem_cons_of_mem item hx)) _

/-- A section has the property of its steps: it is entered, the gap is filled, the items are
written, to the sink or to none, and the length is compared. -/
theorem sectionEmit {s : Section} {id : SectionId} (hid : id < N) {p : PlacedSection}
    (hp : ∀ item ∈ p.items, ∀ f ∈ item.fields, P f.expr) (cursor : Option Word) :
    Q (s.emit id p cursor) := by
  have hgap : Q (Section.emitGap cursor p.start) := by
    unfold Section.emitGap
    split
    · exact h.pure 0
    · dsimp only
      split
      · exact h.pure 0
      · exact h.put _
  have hitems : Q (Item.emitAll p.items) := h.emitFrom hp 0
  have hcheck (count written : Nat) : Q (do
      if (← get).context.address ≠ p.stop then
        MonadExcept.throw (.lengthMismatch p.start p.length count)
      return written) := by
    refine h.cursor (f := fun address => if address ≠ p.stop then
      MonadExcept.throw (.lengthMismatch p.start p.length count) else Pure.pure written)
      (fun s => ?_) fun address => ?_
    · show (if s.context.address ≠ p.stop then
          MonadExcept.throw (.lengthMismatch p.start p.length count) >>= fun _ => Pure.pure written
        else Pure.pure written : Emit Nat) s = _
      split <;> rfl
    · split
      · exact h.throw _
      · exact h.pure written
  refine h.bind (h.enter id hid p.start) fun _ => ?_
  by_cases hs : s.kind = .bss
  · simp only [hs, ↓reduceIte]
    refine h.bind (h.pure 0) fun gap => h.bind (h.discarding hitems) fun count => ?_
    exact hcheck count 0
  · simp only [hs, ↓reduceIte]
    refine h.bind hgap fun gap => h.bind hitems fun count => ?_
    exact hcheck count (gap + count)

/-- A run over sections has the property of its steps. -/
theorem emitSections {l : List (Section × PlacedSection)}
    (hl : ∀ sp ∈ l, ∀ item ∈ sp.2.items, ∀ f ∈ item.fields, P f.expr) {id : Nat}
    (hid : id + l.length ≤ N) (cursor : Option Word) (written : Nat) :
    Q (ObjectFile.emitSections id cursor written l) := by
  induction l generalizing id cursor written with
  | nil => exact h.pure written
  | cons sp l ih =>
    obtain ⟨s, p⟩ := sp
    rw [List.length_cons] at hid
    have hlt : id < N := by omega
    have hrest : id + 1 + l.length ≤ N := by omega
    rw [ObjectFile.emitSections_cons]
    refine h.bind (h.sectionEmit hlt (hl (s, p) List.mem_cons_self) cursor) fun count => ?_
    exact ih (fun x hx => hl x (List.mem_cons_of_mem (s, p) hx)) hrest _ _

end Closed

/-! ## What a run keeps -/

section After

variable {α β : Type} {m : Emit α} {f : α → Emit β} {s t : Emission} {a : α} {e : AssemblyError}

theorem discarding_eq_ok :
    discarding m s = .ok a t ↔
      ∃ u, m ⟨s.context, .discard⟩ = .ok a u ∧ t = { s with context := u.context } := by
  unfold discarding
  cases m ⟨s.context, .discard⟩ <;> grind

theorem discarding_eq_error :
    discarding m s = .error e t ↔
      ∃ u, m ⟨s.context, .discard⟩ = .error e u ∧ t = { s with context := u.context } := by
  unfold discarding
  cases m ⟨s.context, .discard⟩ <;> grind

theorem after_discarding (m : Emit α) (s : Emission) :
    stateAfter (discarding m) s =
      { s with context := (stateAfter m ⟨s.context, .discard⟩).context } := by
  unfold stateAfter discarding
  cases m ⟨s.context, .discard⟩ <;> rfl

theorem after_put_context (run : Run) (s : Emission) :
    (stateAfter (put run) s).context = s.context := by
  rw [stateAfter, put_apply]
  by_cases hfits : (s.sink.write run).2 <;> simp [hfits]

/-- Writing a field leaves the context in which it is settled, if it is. -/
theorem after_write_context (f : Field) (address stop : Word) (wrap : EvalError → AssemblyError)
    (s : Emission) :
    (stateAfter (f.write address stop wrap) s).context =
      match f.settle address stop s.context with
      | .error _ _ => s.context
      | .ok _ ctx => ctx := by
  unfold stateAfter
  rw [Field.write_apply]
  cases f.settle address stop s.context with
  | error e ctx => rfl
  | ok value ctx =>
    by_cases hfits : f.accepts value
    · simp only [hfits, ↓reduceIte]
      exact after_put_context _ { s with context := ctx }
    · simp [hfits]

end After

/-- The contexts before and after a step, also if it fails, are related. -/
def Keeps (R : Context → Context → Prop) {α : Type} (m : Emit α) : Prop :=
  ∀ s, R s.context (stateAfter m s).context

theorem Keeps.of_ok {R : Context → Context → Prop} {α : Type} {m : Emit α} {s t : Emission}
    {a : α} (h : Keeps R m) (hm : m s = .ok a t) : R s.context t.context := by
  have hafter := h s
  rwa [stateAfter_of_ok hm] at hafter

/-- A relation that composes and that the steps of the second pass keep is kept by a run. -/
theorem closed_keeps {N : Nat} {P : Expr → Prop} {R : Context → Context → Prop}
    (refl : ∀ ctx, R ctx ctx) (trans : ∀ {a b c}, R a b → R b c → R a c)
    (move : ∀ (ctx : Context) (address : Word), R ctx { ctx with address := address })
    (enter : ∀ (ctx : Context), ∀ id < N, ∀ start, R ctx (ctx.enterSection id start))
    (settle : ∀ {f : Field} {ctx after : Context} {address stop v : Word}, P f.expr →
      f.settle address stop ctx = .ok v after → R ctx after) :
    Closed N P (Keeps R) where
  pure a s := refl s.context
  throw e s := refl s.context
  bind {α β m f} hm hf := by
    intro s
    have hfirst := hm s
    cases hrun : m s with
    | error e t =>
      rw [stateAfter_of_error hrun] at hfirst
      rwa [stateAfter_bind_of_error hrun]
    | ok a t =>
      rw [stateAfter_of_ok hrun] at hfirst
      rw [stateAfter_bind_of_ok hrun]
      exact trans hfirst (hf a t)
  cursor {α m f} hm hf := by
    intro s
    have hsame : stateAfter m s = stateAfter (f s.context.address) s := by
      rw [stateAfter, stateAfter, hm s]
    rw [hsame]
    exact hf s.context.address s
  put run s := by
    rw [after_put_context]
    exact refl s.context
  write f address stop wrap hf := by
    intro s
    rw [after_write_context]
    split
    · exact refl s.context
    next hsettle => exact settle hf hsettle
  move address s := move s.context address
  enter id hid start s := enter s.context id hid start
  discarding {α m} hm := by
    intro s
    rw [after_discarding]
    exact hm ⟨s.context, .discard⟩

end Emit

/-! ## Tables change with a relocation only -/

namespace Context

/-- A later context of a run lists the relocations of an earlier one first, and has other symbols
only if it lists more. -/
structure Lists (ctx after : Context) : Prop where
  mode : after.mode = ctx.mode
  file : after.file = ctx.file
  relocations : ∃ more, after.relocations = ctx.relocations ++ more
  symbols : after.relocations = ctx.relocations → after.symbols = ctx.symbols

theorem Lists.of_tables {ctx after : Context} (hmode : after.mode = ctx.mode)
    (hfile : after.file = ctx.file) (hrelocations : after.relocations = ctx.relocations)
    (hsymbols : after.symbols = ctx.symbols) : ctx.Lists after :=
  ⟨hmode, hfile, ⟨#[], by rw [hrelocations, Array.append_empty]⟩, fun _ => hsymbols⟩

/-- What lists nothing on its whole way lists nothing on either part of it. -/
theorem Lists.of_trans {a b c : Context} (hab : a.Lists b) (hbc : b.Lists c)
    (h : c.relocations = a.relocations) :
    b.relocations = a.relocations ∧ c.relocations = b.relocations := by
  obtain ⟨more, hb⟩ := hab.relocations
  obtain ⟨rest, hc⟩ := hbc.relocations
  have hnone : more ++ rest = #[] := by
    rwa [hc, hb, Array.append_assoc, Array.append_right_eq_self] at h
  obtain ⟨rfl, rfl⟩ := Array.append_eq_empty_iff.1 hnone
  rw [Array.append_empty] at hb hc
  exact ⟨hb, hc⟩

theorem Lists.trans {a b c : Context} (hab : a.Lists b) (hbc : b.Lists c) : a.Lists c := by
  obtain ⟨more, hb⟩ := hab.relocations
  obtain ⟨rest, hc⟩ := hbc.relocations
  refine ⟨hbc.mode.trans hab.mode, hbc.file.trans hab.file, ⟨more ++ rest, ?_⟩, fun hsame => ?_⟩
  · rw [hc, hb, Array.append_assoc]
  · obtain ⟨hfirst, hsecond⟩ := hab.of_trans hbc hsame
    exact (hbc.symbols hsecond).trans (hab.symbols hfirst)

end Context

theorem Context.eq_of_resolve_value {ctx after : Context} {v : Value} {w : Word}
    (h : v.resolve ctx = .ok (.value w) after) : after = ctx := by
  rw [Value.resolve_apply] at h
  grind

theorem Context.resolve_relocations {ctx after : Context} {v : Value} {resolved : Resolved}
    (h : v.resolve ctx = .ok resolved after) :
    after.mode = ctx.mode ∧ after.file = ctx.file ∧ after.relocations = ctx.relocations := by
  rw [Value.resolve_apply] at h
  unfold insert at h
  grind

/-- Settling a field changes tables only if it lists a relocation. -/
theorem Field.settle_lists {f : Field} {ctx after : Context} {address stop v : Word}
    (h : f.settle address stop ctx = .ok v after) : ctx.Lists after := by
  obtain ⟨value, resolved, mid, -, hresolve, hsettled⟩ := settle_eq_ok h
  cases resolved with
  | value w =>
    cases hsettled
    rw [Context.eq_of_resolve_value hresolve]
    exact .of_tables rfl rfl rfl rfl
  | relocate symbol addend =>
    cases hsettled
    obtain ⟨hmode, hfile, hrelocations⟩ := Context.resolve_relocations hresolve
    refine ⟨hmode, hfile, ⟨#[f.relocation mid address stop symbol addend], ?_⟩, fun hsame => ?_⟩
    · simp [hrelocations]
    · simp [hrelocations] at hsame

namespace Emit

theorem closed_lists (N : Nat) : Closed N (fun _ => True) (Keeps Context.Lists) :=
  closed_keeps (fun _ => .of_tables rfl rfl rfl rfl) .trans
    (fun _ _ => .of_tables rfl rfl rfl rfl) (fun _ _ _ _ => .of_tables rfl rfl rfl rfl)
    (fun _ => Field.settle_lists)

end Emit

/-! ## Runs that come after another -/

/-- The context has the starts of the first `N` sections, and is in none but those. -/
structure Context.IsOpen (N : Nat) (ctx : Context) : Prop where
  starts : ∀ n < N, (ctx.symbols.idOf? (startName n)).isSome
  current : ∀ n, ctx.current = some n → n < N

theorem Context.IsOpen.grow {N : Nat} {ctx after : Context} (h : ctx.IsOpen N)
    (hgrows : ctx.symbols.Grows after.symbols) (hcurrent : after.current = ctx.current) :
    after.IsOpen N := by
  refine ⟨fun n hn => ?_, fun n hn => h.current n (hcurrent ▸ hn)⟩
  obtain ⟨id, hid⟩ := Option.isSome_iff_exists.1 (h.starts n hn)
  rw [hgrows.isPrefix.idOf? hid]
  rfl

/-- A later context of a run has no symbols but imports that an earlier one has not. -/
structure Context.Continues (ctx after : Context) : Prop extends ctx.Lists after where
  grows : ctx.symbols.Grows after.symbols

theorem Context.Continues.of_tables {ctx after : Context} (hmode : after.mode = ctx.mode)
    (hfile : after.file = ctx.file) (hrelocations : after.relocations = ctx.relocations)
    (hsymbols : after.symbols = ctx.symbols) : ctx.Continues after :=
  ⟨.of_tables hmode hfile hrelocations hsymbols, by rw [hsymbols]; exact .refl _⟩

theorem Context.Continues.trans {a b c : Context} (hab : a.Continues b) (hbc : b.Continues c) :
    a.Continues c :=
  ⟨hab.toLists.trans hbc.toLists, hab.grows.trans hbc.grows⟩

/-- A run that starts in an open context stays in open ones. -/
def Context.StaysOpen (N : Nat) (ctx after : Context) : Prop :=
  ctx.IsOpen N → after.IsOpen N ∧ ctx.Continues after

theorem Context.StaysOpen.refl (N : Nat) (ctx : Context) : StaysOpen N ctx ctx :=
  fun hopen => ⟨hopen, .of_tables rfl rfl rfl rfl⟩

theorem Context.StaysOpen.trans {N : Nat} {a b c : Context} (hab : StaysOpen N a b)
    (hbc : StaysOpen N b c) : StaysOpen N a c := by
  intro hopen
  obtain ⟨hb, hcontinues⟩ := hab hopen
  obtain ⟨hc, hcontinues'⟩ := hbc hb
  exact ⟨hc, hcontinues.trans hcontinues'⟩

namespace Emit

theorem closed_staysOpen (N : Nat) : Closed N Expr.IsFunctionFree (Keeps (Context.StaysOpen N)) :=
  closed_keeps (.refl N) .trans
    (fun _ _ hopen => ⟨⟨hopen.starts, hopen.current⟩, .of_tables rfl rfl rfl rfl⟩)
    (fun _ id hid _ hopen =>
      ⟨⟨hopen.starts, fun n hn => by cases hn; exact hid⟩, .of_tables rfl rfl rfl rfl⟩)
    (fun hf hsettle hopen => by
      obtain ⟨hgrows, hsame⟩ := Field.settle_grows hf hsettle
      exact ⟨hopen.grow hgrows (by rw [hsame]), Field.settle_lists hsettle, hgrows⟩)

/-- Where a run that left a table stopped: before a step, in it or behind it. -/
inductive Stopped {α : Type} (m : Emit α) (ctx : Context) (t : SymbolTable) : Prop
  | before (h : t.Grows ctx.symbols)
  | within {sink : Sink} {e : AssemblyError} {s : Emission} (h : m ⟨ctx, sink⟩ = .error e s)
      (ht : s.context.symbols = t)
  | behind {sink : Sink} {a : α} {s : Emission} (h : m ⟨ctx, sink⟩ = .ok a s)
      (ht : s.context.symbols.Grows t)

/-- The result of a step in a context to which relocations and a table were left. -/
def resumed {α : Type} (left : Array Relocation) (t : SymbolTable) :
    EStateM.Result AssemblyError Emission α → EStateM.Result AssemblyError Emission α
  | .ok a s => .ok a { s with context := s.context.resume left t }
  | .error e s => .error e { s with context := s.context.resume left t }

/-- A step over the first `N` sections does the same on every sink until it fails, and it does the
same after a run that stopped. -/
structure Resumable (N : Nat) {α : Type} (m : Emit α) : Prop where
  keeps : Keeps (Context.StaysOpen N) m
  /-- Where it succeeds, the sink makes no difference. -/
  agrees : ∀ {ctx : Context} {v w : Sink} {a b : α} {s t : Emission},
    m ⟨ctx, v⟩ = .ok a s → m ⟨ctx, w⟩ = .ok b t → a = b ∧ s.context = t.context
  /-- Where it fails on one sink, it was on its way to where it succeeds on another. -/
  precedes : ∀ {ctx : Context} {v w : Sink} {e : AssemblyError} {a : α} {s t : Emission},
    ctx.IsOpen N → m ⟨ctx, v⟩ = .error e s → m ⟨ctx, w⟩ = .ok a t →
      s.context.Continues t.context
  resumes : ∀ {ctx : Context} {t : SymbolTable}, ctx.IsOpen N → Stopped m ctx t →
    ∀ (left : Array Relocation) (sink : Sink),
      m ⟨ctx.resume left t, sink⟩ = resumed left t (m ⟨ctx, sink⟩)

namespace Resumable

section Run

variable {N : Nat} {α : Type} {m : Emit α} (hm : Resumable N m) {s t : Emission}
include hm

theorem ok {a : α} (hopen : s.context.IsOpen N) (h : m s = .ok a t) :
    t.context.IsOpen N ∧ s.context.Continues t.context := by
  have hkeeps := hm.keeps s hopen
  rwa [stateAfter_of_ok h] at hkeeps

theorem error {e : AssemblyError} (hopen : s.context.IsOpen N) (h : m s = .error e t) :
    t.context.IsOpen N ∧ s.context.Continues t.context := by
  have hkeeps := hm.keeps s hopen
  rwa [stateAfter_of_error h] at hkeeps

end Run

variable {N : Nat} {α β : Type} {m : Emit α} {f : α → Emit β}

/-- A run that stopped in two steps stopped before or in the first and before the second, or behind
the first and in or behind the second. -/
theorem stopped_bind (hm : Resumable N m) (hf : ∀ a, Resumable N (f a)) {ctx : Context}
    (hopen : ctx.IsOpen N) {t : SymbolTable} (h : Stopped (m >>= f) ctx t) :
    Stopped m ctx t ∧
      ∀ {sink : Sink} {a : α} {s : Emission}, m ⟨ctx, sink⟩ = .ok a s →
        Stopped (f a) s.context t := by
  cases h with
  | before ht => exact ⟨.before ht, fun hrun => .before (ht.trans (hm.ok hopen hrun).2.grows)⟩
  | @within v e after h ht =>
    rcases bind_eq_error.1 h with hfirst | ⟨b, ⟨mid, v'⟩, hfirst, hsecond⟩
    · exact ⟨.within hfirst ht, fun hrun => .before (ht ▸ (hm.precedes hopen hfirst hrun).grows)⟩
    · have hlater := (hf b).error (hm.ok hopen hfirst).1 hsecond
      refine ⟨.behind hfirst (ht ▸ hlater.2.grows), fun hrun => ?_⟩
      obtain ⟨rfl, rfl⟩ := hm.agrees hfirst hrun
      exact .within hsecond ht
  | @behind v b after h ht =>
    obtain ⟨a, ⟨mid, v'⟩, hfirst, hsecond⟩ := bind_eq_ok.1 h
    have hlater := (hf a).ok (hm.ok hopen hfirst).1 hsecond
    refine ⟨.behind hfirst (hlater.2.grows.trans ht), fun hrun => ?_⟩
    obtain ⟨rfl, rfl⟩ := hm.agrees hfirst hrun
    exact .behind hsecond ht

/-- A step that can be resumed, followed by such steps, can be resumed: where the first one stops,
nothing follows. -/
theorem bind (hm : Resumable N m) (hf : ∀ a, Resumable N (f a)) : Resumable N (m >>= f) where
  keeps := (closed_staysOpen N).bind hm.keeps fun a => (hf a).keeps
  agrees hv hw := by
    obtain ⟨a, ⟨ctx, v⟩, hfirst, hv⟩ := bind_eq_ok.1 hv
    obtain ⟨b, ⟨_, w⟩, hfirst', hw⟩ := bind_eq_ok.1 hw
    obtain ⟨rfl, rfl⟩ := hm.agrees hfirst hfirst'
    exact (hf a).agrees hv hw
  precedes hopen hv hw := by
    obtain ⟨b, ⟨_, w⟩, hfirst', hw⟩ := bind_eq_ok.1 hw
    have hmid := hm.ok hopen hfirst'
    rcases bind_eq_error.1 hv with hfirst | ⟨a, ⟨ctx, v⟩, hfirst, hv⟩
    · exact (hm.precedes hopen hfirst hfirst').trans ((hf b).ok hmid.1 hw).2
    · obtain ⟨rfl, rfl⟩ := hm.agrees hfirst hfirst'
      exact (hf a).precedes hmid.1 hv hw
  resumes hopen hstopped left sink := by
    obtain ⟨hfirst, hsecond⟩ := stopped_bind hm hf hopen hstopped
    rw [bind_apply, bind_apply, hm.resumes hopen hfirst]
    cases hrun : m ⟨_, sink⟩ with
    | error e s => rfl
    | ok a s => exact (hf a).resumes (hm.ok hopen hrun).1 (hsecond hrun) left s.sink

/-- A step whose effect on the context is the same on every sink, and sees no table. -/
theorem of_after {g : Context → Context} (hkeeps : ∀ ctx, Context.StaysOpen N ctx (g ctx))
    (hafter : ∀ s, (stateAfter m s).context = g s.context)
    (hvalue : ∀ {s t u v : Emission} {a b : α}, m s = .ok a u → m t = .ok b v → a = b)
    (hresume : ∀ ctx left t sink, m ⟨ctx.resume left t, sink⟩ = resumed left t (m ⟨ctx, sink⟩)) :
    Resumable N m where
  keeps s := by
    rw [hafter]
    exact hkeeps s.context
  agrees {ctx v w a b s t} hv hw := by
    have hs := hafter ⟨ctx, v⟩
    have ht := hafter ⟨ctx, w⟩
    rw [stateAfter_of_ok hv] at hs
    rw [stateAfter_of_ok hw] at ht
    exact ⟨hvalue hv hw, hs.trans ht.symm⟩
  precedes {ctx v w e a s t} _ hv hw := by
    have hs := hafter ⟨ctx, v⟩
    have ht := hafter ⟨ctx, w⟩
    rw [stateAfter_of_error hv] at hs
    rw [stateAfter_of_ok hw] at ht
    rw [hs, ht]
    exact .of_tables rfl rfl rfl rfl
  resumes _ _ left sink := hresume _ left _ sink

/-- Writing a field can be resumed. The number that it settles on may come from an import which an
earlier run registered, and is the same then. -/
theorem write {f : Field} (hf : f.expr.IsFunctionFree) (address stop : Word)
    (wrap : EvalError → AssemblyError) : Resumable N (f.write address stop wrap) where
  keeps := (closed_staysOpen N).write f address stop wrap hf
  agrees hv hw := by
    obtain ⟨value, hsettle, -, -, rfl⟩ := Field.write_eq_ok.1 hv
    obtain ⟨value', hsettle', -, -, rfl⟩ := Field.write_eq_ok.1 hw
    rw [hsettle, EStateM.Result.ok.injEq] at hsettle'
    exact ⟨rfl, hsettle'.2⟩
  precedes {ctx v w e a s t} _ hv hw := by
    -- the field is settled alike, and the sink is left to fail
    obtain ⟨value, hsettle, -⟩ := Field.write_eq_ok.1 hw
    have hcontext := after_write_context f address stop wrap ⟨ctx, v⟩
    rw [stateAfter_of_error hv, hsettle] at hcontext
    rw [hcontext]
    exact .of_tables rfl rfl rfl rfl
  resumes {ctx t} hopen hstopped left sink := by
    have ht : t.Grows ctx.symbols ∨
        ∃ v after, f.settle address stop ctx = .ok v after ∧ after.symbols.Grows t := by
      cases hstopped with
      | before ht => exact .inl ht
      | @within v e s h ht =>
        have hcontext := after_write_context f address stop wrap ⟨ctx, v⟩
        rw [stateAfter_of_error h] at hcontext
        split at hcontext
        · exact .inl (by rw [← ht, hcontext]; exact .refl _)
        next value after hsettle =>
          exact .inr ⟨value, after, hsettle, by rw [← ht, hcontext]; exact .refl _⟩
      | behind h ht =>
        obtain ⟨value, hsettle, -⟩ := Field.write_eq_ok.1 h
        exact .inr ⟨value, _, hsettle, ht⟩
    rw [Field.write_apply, Field.write_apply,
      Field.settle_resume hf (fun n hn => hopen.starts n (hopen.current n hn)) left ht]
    cases f.settle address stop ctx with
    | error e after => rfl
    | ok value after =>
      simp only [Context.resumed, put_apply]
      split
      · split <;> rfl
      · rfl

/-- A step without a sink can be resumed. -/
theorem discarding (hm : Resumable N m) : Resumable N (discarding m) where
  keeps := (closed_staysOpen N).discarding hm.keeps
  agrees hv hw := by
    obtain ⟨s, hs, rfl⟩ := discarding_eq_ok.1 hv
    obtain ⟨t, ht, rfl⟩ := discarding_eq_ok.1 hw
    exact (hm.agrees hs ht :)
  precedes hopen hv hw := by
    obtain ⟨s, hs, rfl⟩ := discarding_eq_error.1 hv
    obtain ⟨t, ht, rfl⟩ := discarding_eq_ok.1 hw
    exact (hm.precedes hopen hs ht :)
  resumes {ctx t} hopen hstopped left sink := by
    have hinner : Stopped m ctx t := by
      cases hstopped with
      | before ht => exact .before ht
      | within h ht =>
        obtain ⟨s, hs, rfl⟩ := discarding_eq_error.1 h
        exact .within hs ht
      | behind h ht =>
        obtain ⟨s, hs, rfl⟩ := discarding_eq_ok.1 h
        exact .behind hs ht
    unfold Emit.discarding
    rw [hm.resumes hopen hinner]
    cases m ⟨ctx, .discard⟩ <;> rfl

/-- A step that takes the cursor first can be resumed, if it can from every cursor. -/
theorem cursor {g : Word → Emit α} (hsame : ∀ s, m s = g s.context.address s)
    (hg : ∀ address, Resumable N (g address)) : Resumable N m where
  keeps := (closed_staysOpen N).cursor hsame fun address => (hg address).keeps
  agrees {ctx v w a b s t} hv hw := by
    rw [hsame] at hv hw
    exact (hg ctx.address).agrees hv hw
  precedes {ctx v w e a s t} hopen hv hw := by
    rw [hsame] at hv hw
    exact (hg ctx.address).precedes hopen hv hw
  resumes {ctx t} hopen hstopped left sink := by
    have hinner : Stopped (g ctx.address) ctx t := by
      cases hstopped with
      | before ht => exact .before ht
      | within h ht => exact .within (hsame _ ▸ h) ht
      | behind h ht => exact .behind (hsame _ ▸ h) ht
    rw [hsame, hsame]
    exact (hg ctx.address).resumes hopen hinner left sink

end Resumable

/-- The steps of the second pass can be resumed, as long as expressions are spelled out. -/
theorem closed_resumable (N : Nat) : Closed N Expr.IsFunctionFree (Resumable N) where
  pure a := .of_after (g := id) (.refl N) (fun _ => rfl)
    (fun hs ht => by cases hs; cases ht; rfl) fun _ _ _ _ => rfl
  throw e := .of_after (g := id) (.refl N) (fun _ => rfl)
    (fun hs _ => nomatch hs) fun _ _ _ _ => rfl
  bind := Resumable.bind
  cursor := Resumable.cursor
  put run := .of_after (g := id) (.refl N) (after_put_context run)
    (fun hs ht => (put_eq_ok.1 hs).2.2.trans (put_eq_ok.1 ht).2.2.symm) fun ctx left t sink => by
      rw [put_apply, put_apply]
      split <;> rfl
  write f address stop wrap hf := .write hf address stop wrap
  move address := .of_after (g := fun ctx => { ctx with address := address })
    (fun ctx => (closed_staysOpen N).move address ⟨ctx, .discard⟩) (fun _ => rfl)
    (fun _ _ => rfl) fun _ _ _ _ => rfl
  enter id hid start := .of_after (g := fun ctx => ctx.enterSection id start)
    (fun ctx => (closed_staysOpen N).enter id hid start ⟨ctx, .discard⟩) (fun _ => rfl)
    (fun _ _ => rfl) fun _ _ _ _ => rfl
  discarding := Resumable.discarding

end Emit

end Assembler
