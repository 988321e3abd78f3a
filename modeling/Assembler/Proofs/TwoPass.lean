import Assembler.Proofs.SecondPass

/-!
# The two passes agree

The first pass fixes addresses while it makes items, the second writes the items at addresses of its
own. Both start a section at the same place and move by the lengths of the same items, so that the
second pass comes to every item at the address where the first one made it.

`ObjectFile.Visits` and `ObjectFile.Reaches` say when a pass is about to deal with a leaf or an
item, by what it has done up to there. Main statement: `passes_agree`.
-/

namespace Assembler

namespace ObjectFile

/-- The first pass comes to leaf `j` of section `k` in the context `ctx`, when it has made the items
`made` of that section. -/
def Visits (obj : ObjectFile) (k j : Nat) (leaf : Statement) (made : List Item)
    (ctx : Context) : Prop :=
  ∃ s before mid start,
    obj.sections[k]? = some s ∧ (Statement.allLeaves s.contents)[j]? = some leaf ∧
    constructSections 0 0 [] (.new obj.context.mode) (obj.sections.take k) =
      (.ok (), mid, before) ∧
    s.startAfter (stopAfter 0 before) = .ok start ∧
    Statement.constructAll ((Statement.allLeaves s.contents).take j)
      (mid.openSection k start).2 = .ok made ctx

/-- The second pass comes to item `i` of section `k` in the state `st`: the sections before `k` are
written, section `k` is entered, and its items before `i` are written. -/
def Reaches (obj : ObjectFile) (sink : Sink) (k i : Nat) (item : Item) (st : Emission) : Prop :=
  ∃ s p n mid m,
    (obj.sections.zip obj.placed)[k]? = some (s, p) ∧ p.items[i]? = some item ∧
    emitSections 0 none 0 ((obj.sections.zip obj.placed).take k) ⟨obj.context.reset, sink⟩ =
      .ok n mid ∧
    (s.enter k p (cursorAfter none ((obj.sections.zip obj.placed).take k)) >>= fun gap =>
      Item.emitFrom gap (p.items.take i)) mid = .ok m st

/-! ## The first pass -/

section FirstPass

variable {obj built : ObjectFile} (h : obj.construct = (.ok (), built))
include h

/-- Every section is laid out from where the sections before it stop. -/
theorem exists_placed {k : Nat} {s : Section} (hk : obj.sections[k]? = some s) :
    ∃ before mid p next,
      constructSections 0 0 [] (.new obj.context.mode) (obj.sections.take k) =
        (.ok (), mid, before) ∧
      s.construct k (stopAfter 0 before) mid = .ok p next ∧ built.placed[k]? = some p ∧
      ∀ {identifier symbol}, (∀ n, identifier ≠ Context.startName n) →
        next.symbols.find? identifier = some symbol →
        built.context.symbols.find? identifier = some symbol := by
  obtain ⟨hrun, -⟩ := construct_ok h
  obtain ⟨before, mid, p, next, rest, htake, hlen, hp, hrest, hplaced⟩ :=
    constructSections_split hrun hk
  rw [Nat.zero_add] at hp
  refine ⟨before, mid, p, next, htake, hp, ?_, fun hname hf =>
    constructSections_find? hrest (fun n _ _ => hname n) hf⟩
  rw [hplaced, List.getElem?_append_right (by omega)]
  simp [hlen]

/-- Every leaf is visited, at the address where the items before it stop. -/
theorem exists_visit {k j : Nat} {s : Section} {leaf : Statement} (hk : obj.sections[k]? = some s)
    (hj : (Statement.allLeaves s.contents)[j]? = some leaf) :
    ∃ made ctx own placed p rest, obj.Visits k j leaf made ctx ∧
      leaf.place ctx = .ok own placed ∧ built.placed[k]? = some p ∧
      p.items = made ++ own ++ rest ∧ ctx.address = advance p.start made ∧
      ctx.current = some k ∧
      ∀ {identifier symbol}, (∀ n, identifier ≠ Context.startName n) →
        placed.symbols.find? identifier = some symbol →
        built.context.symbols.find? identifier = some symbol := by
  obtain ⟨before, mid, p, next, htake, hp, hplaced, hkept⟩ := exists_placed h hk
  obtain ⟨hstart, hitems, -⟩ := Section.construct_ok hp
  have hleaves := Statement.isLeaf_of_mem_allLeaves s.contents
  obtain ⟨made, ctx, own, placed, rest, hmade, hown, hrest, hall⟩ :=
    Statement.constructAll_split hleaves hitems hj
  obtain ⟨haddr, hext⟩ :=
    Statement.constructAll_advance (fun x hx => hleaves x (List.mem_of_mem_take hx)) hmade
  obtain ⟨-, hlater⟩ :=
    Statement.constructAll_advance (fun x hx => hleaves x (List.mem_of_mem_drop hx)) hrest
  exact ⟨made, ctx, own, placed, p, rest, ⟨s, before, mid, p.start, hk, hj, htake, hstart, hmade⟩,
    hown, hplaced, hall, haddr, hext.current, fun hname hf => hkept hname (hlater.find? hf)⟩

/-- Every item comes from a leaf, at the address where the items before it stop. -/
theorem exists_visit_of_item {k i : Nat} {s : Section} {p : PlacedSection} {item : Item}
    (hk : obj.sections[k]? = some s) (hp : built.placed[k]? = some p)
    (hi : p.items[i]? = some item) :
    ∃ j leaf made ctx own placed m, obj.Visits k j leaf made ctx ∧
      leaf.place ctx = .ok own placed ∧ i = made.length + m ∧ own[m]? = some item ∧
      advance ctx.address (own.take m) = advance p.start (p.items.take i) := by
  obtain ⟨before, mid, q, next, htake, hq, hplaced, -⟩ := exists_placed h hk
  rw [hp, Option.some.injEq] at hplaced
  subst hplaced
  obtain ⟨hstart, hitems, -⟩ := Section.construct_ok hq
  have hleaves := Statement.isLeaf_of_mem_allLeaves s.contents
  obtain ⟨j, leaf, made, ctx, own, placed, m, hj, hmade, hown, rfl, hm⟩ :=
    Statement.constructAll_getElem? hleaves hitems hi
  -- cut at that leaf, the walk gives the items around it; both cuts are of one run
  obtain ⟨made', ctx', own', placed', rest, hmade', hown', -, hall⟩ :=
    Statement.constructAll_split hleaves hitems hj
  rw [hmade] at hmade'
  cases hmade'
  rw [hown] at hown'
  cases hown'
  refine ⟨j, leaf, made, ctx, own, placed, m,
    ⟨s, before, mid, p.start, hk, hj, htake, hstart, hmade⟩, hown, rfl, hm, ?_⟩
  obtain ⟨haddr, -⟩ :=
    Statement.constructAll_advance (fun x hx => hleaves x (List.mem_of_mem_take hx)) hmade
  have hlt : m < own.length := (List.getElem?_eq_some_iff.1 hm).1
  have hsplit : p.items.take (made.length + m) = made ++ own.take m := by
    rw [hall, List.append_assoc, List.take_length_add_append,
      List.take_append_of_le_length (Nat.le_of_lt hlt)]
  rw [hsplit, advance_append, haddr]
  rfl

/-- A label stands in its section, where the items before it stop. -/
theorem exists_label {k j : Nat} {s : Section} {identifier : String} {kind : SymbolKind}
    (hk : obj.sections[k]? = some s)
    (hj : (Statement.allLeaves s.contents)[j]? = some (.label identifier kind))
    (hname : ∀ n, identifier ≠ Context.startName n) :
    ∃ made ctx symbol p, obj.Visits k j (.label identifier kind) made ctx ∧
      built.context.symbols.find? identifier = some symbol ∧ symbol.home = some k ∧
      built.placed[k]? = some p ∧ made.length ≤ p.items.length ∧
      symbol.value = advance p.start (p.items.take made.length) := by
  obtain ⟨made, ctx, own, placed, p, rest, hvisit, hplace, hp, hitems, haddr, hcurrent, hkept⟩ :=
    exists_visit h hk hj
  obtain ⟨rfl, hfind⟩ := Statement.place_label hplace
  refine ⟨made, ctx, _, p, hvisit, hkept hname hfind, hcurrent, hp, ?_, ?_⟩
  · simp [hitems]
  · rw [hitems, List.append_nil, List.take_left, ← haddr]

end FirstPass

/-! ## The second pass -/

/-- Every section has a place, and every place stops where its items do. -/
structure IsLaidOut (obj : ObjectFile) : Prop where
  stage : obj.stage = .constructed
  length : obj.placed.length = obj.sections.length
  filled : ∀ p ∈ obj.placed, p.IsFilled

theorem IsLaidOut.of_construct {obj built : ObjectFile} (h : obj.construct = (.ok (), built)) :
    built.IsLaidOut := by
  obtain ⟨hrun, hsections, hstage, -⟩ := construct_ok h
  obtain ⟨hlen, hfilled⟩ := constructSections_isFilled hrun
  exact ⟨hstage, by rw [hsections, hlen], hfilled⟩

theorem IsLaidOut.filled_of_mem_zip {obj : ObjectFile} (h : obj.IsLaidOut) :
    ∀ sp ∈ obj.sections.zip obj.placed, sp.2.IsFilled :=
  fun sp hsp => h.filled sp.2 (List.of_mem_zip hsp).2

/-- A second pass out of turn is refused, and nothing changes. -/
theorem emitTo_of_ne_constructed {W : Type} [Writer W] {obj : ObjectFile}
    (h : obj.stage ≠ .constructed) (sink : W) :
    obj.emitTo sink = (.error (.wrongStage .emit obj.stage), obj, sink) := by
  unfold emitTo
  rw [if_pos h]

theorem emit_of_ne_constructed {obj : ObjectFile} (h : obj.stage ≠ .constructed) (sink : Sink) :
    obj.emit sink = (.error (.wrongStage .emit obj.stage), obj, sink) :=
  emitTo_of_ne_constructed h sink

/-- The second pass is the run over all sections, and the answer of the container. -/
theorem emitTo_eq {W : Type} [Writer W] {obj : ObjectFile} (h : obj.stage = .constructed)
    (sink : W) :
    obj.emitTo sink =
      match emitSections 0 none 0 (obj.sections.zip obj.placed) ⟨obj.context.reset, sink⟩ with
      | .error e s => (.error e, { obj with context := s.context }, s.sink)
      | .ok written s =>
        let obj := { obj with context := s.context, stage := .emitted }
        match obj.container.check obj.context.symbols obj.sections with
        | .error e => (.error (.container e), obj, s.sink)
        | .ok () => (.ok written, obj, s.sink) := by
  unfold emitTo
  exact if_neg (by simp [h])

theorem emit_eq {obj : ObjectFile} (h : obj.stage = .constructed) (sink : Sink) :
    obj.emit sink =
      match emitSections 0 none 0 (obj.sections.zip obj.placed) ⟨obj.context.reset, sink⟩ with
      | .error e s => (.error e, { obj with context := s.context }, s.sink)
      | .ok written s =>
        let obj := { obj with context := s.context, stage := .emitted }
        match obj.container.check obj.context.symbols obj.sections with
        | .error e => (.error (.container e), obj, s.sink)
        | .ok () => (.ok written, obj, s.sink) := by
  rw [emit, emitTo_eq h]
  cases emitSections 0 none 0 (obj.sections.zip obj.placed) ⟨obj.context.reset, sink⟩ <;> rfl

/-- The second pass succeeds in its turn, when all sections are written and the container can
express them. -/
theorem emit_eq_ok_iff {obj : ObjectFile} {sink out : Sink} {n : Nat} {final : ObjectFile} :
    obj.emit sink = (.ok n, final, out) ↔
      obj.stage = .constructed ∧
      ∃ t, emitSections 0 none 0 (obj.sections.zip obj.placed) ⟨obj.context.reset, sink⟩ =
          .ok n t ∧
        obj.container.check t.context.symbols obj.sections = .ok () ∧
        final = { obj with context := t.context, stage := .emitted } ∧ out = t.sink := by
  by_cases h : obj.stage = .constructed
  · rw [emit_eq h]
    cases emitSections 0 none 0 (obj.sections.zip obj.placed) ⟨obj.context.reset, sink⟩ with
    | error e t => simp
    | ok written t =>
      dsimp only
      cases hcheck : obj.container.check t.context.symbols obj.sections with
      | error e => grind
      | ok u => grind
  · rw [emit_of_ne_constructed h]
    simp [h]

/-- Of an object file that is laid out, the second pass is next. -/
theorem emit_eq_ok {obj : ObjectFile} (h : obj.IsLaidOut) {sink out : Sink} {n : Nat}
    {final : ObjectFile} :
    obj.emit sink = (.ok n, final, out) ↔
      ∃ t, emitSections 0 none 0 (obj.sections.zip obj.placed) ⟨obj.context.reset, sink⟩ =
          .ok n t ∧
        obj.container.check t.context.symbols obj.sections = .ok () ∧
        final = { obj with context := t.context, stage := .emitted } ∧ out = t.sink := by
  rw [emit_eq_ok_iff, h.stage, eq_self_iff_true, true_and]

/-- The second pass never finds a length that was not kept. -/
theorem emit_no_mismatch {obj : ObjectFile} (h : obj.IsLaidOut) {sink : Sink} {e : AssemblyError}
    (he : (obj.emit sink).1 = .error e) : ¬ e.IsMismatch := by
  rw [emit_eq h.stage] at he
  split at he
  next hrun =>
    cases he
    exact (emitSections_isOfWriting h.filled_of_mem_zip hrun).not_isMismatch
  next =>
    dsimp only at he
    split at he
    · cases he
      exact id
    · cases he

section Reaches

variable {obj : ObjectFile} {sink : Sink} {k i : Nat} {item : Item} {st : Emission}

theorem Reaches.exists_placed (h : obj.Reaches sink k i item st) :
    ∃ s p, obj.sections[k]? = some s ∧ obj.placed[k]? = some p ∧ p.items[i]? = some item := by
  obtain ⟨s, p, n, mid, m, hk, hi, -⟩ := h
  obtain ⟨hs, hp⟩ := List.getElem?_zip_eq_some.1 hk
  exact ⟨s, p, hs, hp, hi⟩

/-- The second pass comes to an item where the items before it stop. -/
theorem Reaches.address (h : obj.Reaches sink k i item st) {p : PlacedSection}
    (hp : obj.placed[k]? = some p) :
    st.context.address = advance p.start (p.items.take i) := by
  obtain ⟨s, q, n, mid, m, hk, -, -, hrun⟩ := h
  rw [(List.getElem?_zip_eq_some.1 hk).2, Option.some.injEq] at hp
  subst hp
  obtain ⟨gap, u, henter, hitems⟩ := bind_eq_ok.1 hrun
  rw [(Item.emitFrom_writes hitems).2.1, Section.enter_context henter]
  rfl

/-- Items of a section without an image go to no sink. -/
theorem Reaches.sink_eq_discard (h : obj.Reaches sink k i item st) {s : Section}
    (hs : obj.sections[k]? = some s) (hbss : s.kind = .bss) : st.sink = .discard := by
  obtain ⟨s', p, n, mid, m, hk, -, -, hrun⟩ := h
  rw [(List.getElem?_zip_eq_some.1 hk).1, Option.some.injEq] at hs
  subst hs
  rw [bind_apply, Section.enter_of_bss hbss] at hrun
  obtain ⟨-, -, bytes, -, hwrites⟩ := Item.emitFrom_writes hrun
  exact hwrites.sink

/-- An item that cannot be written ends the second pass with its error. -/
theorem Reaches.emit_error (hobj : obj.IsLaidOut) (h : obj.Reaches sink k i item st)
    {e : AssemblyError} {t : Emission} (he : item.emit st = .error e t) :
    (obj.emit sink).1 = .error e := by
  obtain ⟨s, p, n, mid, m, hk, hi, hbefore, hrun⟩ := h
  obtain ⟨gap, u, henter, hmade⟩ := bind_eq_ok.1 hrun
  -- the error passes through the items, the section and the other sections
  have hsection : s.emit k p (cursorAfter none ((obj.sections.zip obj.placed).take k)) mid =
      .error e (s.leave mid t) := by
    have hitems : Item.emitFrom gap p.items u = .error e t := by
      rw [Item.emitFrom_at hi, bind_eq_error]
      exact .inr ⟨m, st, hmade, bind_eq_error.2 (.inl he)⟩
    rw [Section.emit_apply (hobj.filled_of_mem_zip (s, p) (List.mem_of_getElem? hk)),
      bind_eq_error.2 (.inr ⟨gap, u, henter, hitems⟩)]
  have hall : emitSections 0 none 0 (obj.sections.zip obj.placed) ⟨obj.context.reset, sink⟩ =
      .error e (s.leave mid t) := by
    rw [emitSections_at hk, bind_eq_error]
    exact .inr ⟨n, mid, hbefore, bind_eq_error.2 (.inl hsection)⟩
  rw [emit_eq hobj.stage, hall]

/-- A second pass that succeeds comes to every item. -/
theorem exists_reaches (hobj : obj.IsLaidOut) {n : Nat} (h : (obj.emit sink).1 = .ok n)
    {p : PlacedSection} (hp : obj.placed[k]? = some p) (hi : p.items[i]? = some item) :
    ∃ st, obj.Reaches sink k i item st := by
  obtain ⟨s, hs⟩ : ∃ s, obj.sections[k]? = some s := by
    have hlt := (List.getElem?_eq_some_iff.1 hp).1
    rw [hobj.length] at hlt
    exact ⟨_, List.getElem?_eq_getElem hlt⟩
  have hk : (obj.sections.zip obj.placed)[k]? = some (s, p) :=
    List.getElem?_zip_eq_some.2 ⟨hs, hp⟩
  obtain ⟨t, hrun, -⟩ := (emit_eq_ok hobj).1 (Prod.ext h rfl)
  rw [emitSections_at hk, bind_eq_ok] at hrun
  obtain ⟨before, mid, hbefore, hrun⟩ := hrun
  obtain ⟨count, after, hsection, -⟩ := bind_eq_ok.1 hrun
  rw [Section.emit_apply (hobj.filled_of_mem_zip (s, p) (List.mem_of_getElem? hk))] at hsection
  split at hsection
  · cases hsection
  next hwritten =>
    obtain ⟨gap, u, henter, hitems⟩ := bind_eq_ok.1 hwritten
    rw [Item.emitFrom_at hi] at hitems
    obtain ⟨m, st, hmade, -⟩ := bind_eq_ok.1 hitems
    exact ⟨st, s, p, before, mid, m, hk, hi, hbefore, bind_eq_ok.2 ⟨gap, u, henter, hmade⟩⟩

end Reaches

/-! ## Agreement -/

/-- The first pass lays an object file out; `tables` are those it leaves, or those of any second
pass that failed since. Then, with any sink:

* The second pass comes to an item at the address where the first made it, after the items that the
  same leaf made before it. An item that is written hands over as many bytes as its length says, to
  no sink in a section without an image, and moves the cursor by as many. An item that is not
  written ends the pass with its error. A pass that succeeds comes to every item.
* No length is found that was not kept, of an item or of a section.
* A label that does not take the name of a section's start stands in its section, at the address of
  the first item after it, or where the section stops. -/
theorem passes_agree {obj built : ObjectFile} (h : obj.construct = (.ok (), built))
    (tables : Context) (sink : Sink) :
    let again := { built with context := tables }
    (∀ k i item st, again.Reaches sink k i item st →
      (∃ j leaf made ctx own placed m, obj.Visits k j leaf made ctx ∧
        leaf.place ctx = .ok own placed ∧ i = made.length + m ∧ own[m]? = some item ∧
        st.context.address = advance ctx.address (own.take m)) ∧
      (∀ s, obj.sections[k]? = some s → s.kind = .bss → st.sink = .discard) ∧
      (∀ n t, item.emit st = .ok n t →
        n = item.length ∧ (Emit.output item.emit st.context).length = item.length ∧
        t.sink = st.sink.push (Emit.output item.emit st.context) ∧
        t.context.address = st.context.address + .ofNat item.length) ∧
      (∀ e t, item.emit st = .error e t → (again.emit sink).1 = .error e)) ∧
    (∀ n, (again.emit sink).1 = .ok n → ∀ k p i item, built.placed[k]? = some p →
      p.items[i]? = some item → ∃ st, again.Reaches sink k i item st) ∧
    (∀ address expected actual,
      (again.emit sink).1 ≠ .error (.lengthMismatch address expected actual)) ∧
    (∀ k s j identifier kind, obj.sections[k]? = some s →
      (Statement.allLeaves s.contents)[j]? = some (.label identifier kind) →
      (∀ n, identifier ≠ Context.startName n) →
      ∃ made ctx symbol p, obj.Visits k j (.label identifier kind) made ctx ∧
        built.context.symbols.find? identifier = some symbol ∧ symbol.home = some k ∧
        built.placed[k]? = some p ∧ made.length ≤ p.items.length ∧
        (made.length = p.items.length → symbol.value = p.stop) ∧
        ∀ item st, again.Reaches sink k made.length item st →
          symbol.value = st.context.address) := by
  intro again
  have hlaid := IsLaidOut.of_construct h
  have hagain : again.IsLaidOut := ⟨hlaid.stage, hlaid.length, hlaid.filled⟩
  refine ⟨?_, ?_, ?_, ?_⟩
  · intro k i item st hreach
    obtain ⟨s, p, hs, hp, hi⟩ := hreach.exists_placed
    have hdiscard := fun s => hreach.sink_eq_discard (s := s)
    rw [show again.sections = obj.sections from (construct_ok h).2.1] at hs hdiscard
    refine ⟨?_, hdiscard, ?_, fun e t => hreach.emit_error hagain⟩
    · -- both passes stand where the items before this one stop
      obtain ⟨j, leaf, made, ctx, own, placed, m, hvisit, hplace, rfl, hm, haddr⟩ :=
        exists_visit_of_item h hs hp hi
      exact ⟨j, leaf, made, ctx, own, placed, m, hvisit, hplace, rfl, hm,
        by rw [haddr, hreach.address hp]⟩
    · intro n t hemit
      obtain ⟨hn, haddr, bytes, hlen, hwrites⟩ := Item.emit_writes hemit
      rw [hwrites.output]
      exact ⟨hn, hlen, hwrites.sink, haddr⟩
  · intro n hn k p i item hp hi
    exact exists_reaches hagain hn hp hi
  · intro address expected actual hemit
    exact emit_no_mismatch hagain hemit trivial
  · intro k s j identifier kind hs hj hname
    obtain ⟨made, ctx, symbol, p, hvisit, hfind, hhome, hp, hle, hvalue⟩ :=
      exists_label h hs hj hname
    refine ⟨made, ctx, symbol, p, hvisit, hfind, hhome, hp, hle, ?_, ?_⟩
    · intro hlast
      rw [hvalue, hlast, List.take_length, hlaid.filled p (List.mem_of_getElem? hp)]
    · intro item st hreach
      rw [hvalue, hreach.address hp]

/-- A label in nested groups, behind padding and before two values that refer to it. -/
def nestedLabel : ObjectFile :=
  (ObjectFile.new .bit32 .flat).addSection
    { Section.new "text" .text with contents :=
        [.data (.bytes [1, 2, 3]),
          .group [.align 4 0x90,
            .group [.label "here" .plain,
              .data (.values .bit32 [.reference "here", .reference "here"])]]] }

/-- A label in a group is defined at the address where the item behind it is written. -/
theorem passes_agree_nestedLabel :
    ∃ built symbol st, nestedLabel.construct = (.ok (), built) ∧
      built.context.symbols.find? "here" = some symbol ∧ symbol.home = some 0 ∧
      built.Reaches (.new none) 0 2 (.data (.absolute (.reference "here") .bit32)) st ∧
      symbol.value = 4 ∧ symbol.value = st.context.address := by
  have hbuilt : nestedLabel.construct = (.ok (), nestedLabel.construct.2) :=
    Prod.ext (eq_ok_of_toOption (by decide +kernel)) rfl
  obtain ⟨-, hall, -, hlabels⟩ := passes_agree hbuilt nestedLabel.construct.2.context (.new none)
  obtain ⟨st, hreach⟩ := hall 12 (eq_ok_of_toOption (by decide +kernel)) 0 _ 2
    (.data (.absolute (.reference "here") .bit32)) rfl rfl
  have hname : ∀ n, "here" ≠ Context.startName n := by
    intro n hn
    have hhead := congrArg (fun s => s.toList.head?) hn
    simp [Context.startName] at hhead
  obtain ⟨made, ctx, symbol, p, hvisit, hfind, hhome, -, -, -, hvalue⟩ :=
    hlabels 0 _ 2 "here" .plain rfl rfl hname
  obtain ⟨s, before, mid, start, hk, -, hrun, hstart, hmade⟩ := hvisit
  cases hk
  cases hrun
  cases hstart
  cases hmade
  refine ⟨_, symbol, st, hbuilt, hfind, hhome, hreach, ?_, hvalue _ st hreach⟩
  cases hfind
  rfl

end ObjectFile

end Assembler
