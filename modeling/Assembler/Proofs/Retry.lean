import Assembler.Proofs.Declarations
import Assembler.Proofs.Resumption
import Assembler.Proofs.TwoPass

/-!
# Emitting again

The second pass rewinds the cursor and keeps the tables, so that the next try sees what a failed one
left. `Retried` is an object file after any number of failed tries. `Resumes` is what holds of its
context: the symbols are those of the try that came furthest, and the relocations those of all.
Main statement: `emit_retried`.
-/

namespace Assembler

/-! ## What the first pass leaves -/

theorem Statement.constructAll_relocations {l : List Statement} (hl : ∀ leaf ∈ l, leaf.IsLeaf)
    {ctx after : Context} {items : List Item} (h : constructAll l ctx = .ok items after) :
    after.relocations = ctx.relocations := by
  rw [← stateAfter_of_ok h]
  exact (framed_constructAll hl ctx).relocations

namespace ObjectFile

/-- The first pass lists no relocation, and leaves the starts of all sections. -/
theorem constructSections_isOpen {l : List Section} {id : Nat} {stop : Word}
    {ctx after : Context} {placed : List PlacedSection}
    (h : constructSections id stop [] ctx l = (.ok (), after, placed)) :
    after.relocations = ctx.relocations ∧
      ∀ n, id ≤ n → n < id + l.length → after.Knows (Context.startName n) := by
  induction l generalizing id stop ctx placed with
  | nil =>
    cases h
    refine ⟨rfl, fun n hle hlt => ?_⟩
    rw [List.length_nil] at hlt
    omega
  | cons s l ih =>
    obtain ⟨p, next, rest, hp, hrest, rfl⟩ := constructSections_cons_eq_ok.1 h
    obtain ⟨hrelocations, hknows⟩ := ih hrest
    constructor
    · obtain ⟨-, hitems, -⟩ := Section.construct_ok hp
      rw [hrelocations,
        Statement.constructAll_relocations (Statement.isLeaf_of_mem_allLeaves _) hitems]
      rfl
    · intro n hle hlt
      rw [List.length_cons] at hlt
      rcases Nat.eq_or_lt_of_le hle with rfl | hnext
      · exact constructSections_knows hrest (Section.construct_declares hp (.inl rfl)).2
      · exact hknows n hnext (by omega)

/-- The second pass over all sections, before the container is asked. -/
def run (obj : ObjectFile) : Emit Nat := emitSections 0 none 0 (obj.sections.zip obj.placed)

/-- What the second pass comes to when all sections are written, or one of them fails. -/
def finish (obj : ObjectFile) :
    EStateM.Result AssemblyError Emission Nat → Except AssemblyError Nat × ObjectFile × Sink
  | .error e s => (.error e, { obj with context := s.context }, s.sink)
  | .ok written s =>
    let obj := { obj with context := s.context, stage := .emitted }
    match obj.container.check obj.context.symbols obj.sections with
    | .error e => (.error (.container e), obj, s.sink)
    | .ok () => (.ok written, obj, s.sink)

theorem emit_eq_finish {obj : ObjectFile} (h : obj.stage = .constructed) (sink : Sink) :
    obj.emit sink = obj.finish (obj.run ⟨obj.context.reset, sink⟩) :=
  emit_eq h sink

/-- What the steps of the second pass have, the whole of it has. -/
theorem of_closed (obj : ObjectFile) {P : Expr → Prop} {Q : {α : Type} → Emit α → Prop}
    (h : Emit.Closed obj.sections.length P Q)
    (hobj : ∀ p ∈ obj.placed, ∀ item ∈ p.items, ∀ f ∈ item.fields, P f.expr) : Q obj.run := by
  have hlength : (obj.sections.zip obj.placed).length ≤ obj.sections.length := by
    rw [List.length_zip]
    exact Nat.min_le_left _ _
  refine h.emitSections (fun sp hsp => hobj sp.2 (List.of_mem_zip hsp).2) ?_ none 0
  rwa [Nat.zero_add]

/-- The second pass changes the context, and the stage if all sections are written. -/
theorem emit_object {obj : ObjectFile} (h : obj.stage = .constructed) (sink : Sink) :
    (∃ e s, obj.run ⟨obj.context.reset, sink⟩ = .error e s ∧
      (obj.emit sink).2.1 = { obj with context := s.context }) ∨
    ∃ n s, obj.run ⟨obj.context.reset, sink⟩ = .ok n s ∧
      (obj.emit sink).2.1 = { obj with context := s.context, stage := .emitted } := by
  rw [emit_eq_finish h]
  cases obj.run ⟨obj.context.reset, sink⟩ with
  | error e s => exact .inl ⟨e, s, rfl, rfl⟩
  | ok n s =>
    refine .inr ⟨n, s, rfl, ?_⟩
    rw [finish]
    dsimp only
    split <;> rfl

/-- However the second pass ends, the context is that of the run, and only the stage is left to
it. -/
theorem emit_eq_after {obj : ObjectFile} (h : obj.stage = .constructed) (sink : Sink) :
    (obj.emit sink).2.1 = { obj with
      context := (stateAfter obj.run ⟨obj.context.reset, sink⟩).context
      stage := (obj.emit sink).2.1.stage } := by
  rcases emit_object h sink with ⟨e, s, hrun, hafter⟩ | ⟨n, s, hrun, hafter⟩
  · rw [hafter, stateAfter_of_error hrun]
  · rw [hafter, stateAfter_of_ok hrun]

/-- A try that can be repeated changes the context alone. -/
theorem run_of_emit_constructed {obj : ObjectFile} (h : obj.IsLaidOut) {sink : Sink}
    (hstage : (obj.emit sink).2.1.stage = .constructed) :
    ∃ e s, obj.run ⟨obj.context.reset, sink⟩ = .error e s ∧
      (obj.emit sink).2.1 = { obj with context := s.context } := by
  rcases emit_object h.stage sink with hfailed | ⟨n, s, -, hsame⟩
  · exact hfailed
  · rw [hsame] at hstage
    cases hstage

theorem run_of_emit_emitted {obj : ObjectFile} (h : obj.IsLaidOut) {sink : Sink}
    (hstage : (obj.emit sink).2.1.stage = .emitted) :
    ∃ n s, obj.run ⟨obj.context.reset, sink⟩ = .ok n s ∧
      (obj.emit sink).2.1 = { obj with context := s.context, stage := .emitted } := by
  rcases emit_object h.stage sink with ⟨e, s, -, hsame⟩ | hdone
  · rw [hsame] at hstage
    have hstages := h.stage.symm.trans hstage
    cases hstages
  · exact hdone

/-- An object file that the first pass left. -/
structure IsBuilt (obj : ObjectFile) : Prop extends obj.IsLaidOut where
  relocations : obj.context.relocations = #[]
  isOpen : obj.context.reset.IsOpen obj.sections.length

theorem IsBuilt.of_construct {obj built : ObjectFile} (h : obj.construct = (.ok (), built)) :
    built.IsBuilt := by
  obtain ⟨hrun, hsections, -⟩ := construct_ok h
  obtain ⟨hrelocations, hknows⟩ := constructSections_isOpen hrun
  refine ⟨.of_construct h, hrelocations, fun n hn => ?_, fun n hn => nomatch hn⟩
  exact (hknows n (Nat.zero_le n) (by rw [← hsections]; omega)).isSome_idOf?

/-- The object file that is left when the second pass failed, any number of times. -/
inductive Retried (built : ObjectFile) : ObjectFile → Prop
  | none : Retried built built
  | failed {obj : ObjectFile} (sink : Sink) (h : Retried built obj)
      (hstage : (obj.emit sink).2.1.stage = .constructed) : Retried built (obj.emit sink).2.1

section Retried

variable {built again : ObjectFile} (hbuilt : built.IsBuilt)
include hbuilt

theorem isLaidOut_of_context (ctx : Context) : { built with context := ctx }.IsLaidOut :=
  ⟨hbuilt.stage, hbuilt.length, hbuilt.filled⟩

/-- A failed try changes the context only, and that as the steps of a run do. -/
theorem Retried.lists (h : built.Retried again) :
    again = { built with context := again.context } ∧ built.context.Lists again.context := by
  induction h with
  | none => exact ⟨rfl, .of_tables rfl rfl rfl rfl⟩
  | @failed obj sink h hstage ih =>
    obtain ⟨hsame, hlists⟩ := ih
    have hlaid : obj.IsLaidOut := hsame ▸ isLaidOut_of_context hbuilt obj.context
    obtain ⟨e, s, hrun, hafter⟩ := run_of_emit_constructed hlaid hstage
    have hkeeps := of_closed obj (Emit.closed_lists _) (fun _ _ _ _ _ _ => trivial)
      ⟨obj.context.reset, sink⟩
    rw [stateAfter_of_error hrun] at hkeeps
    rw [hafter]
    refine ⟨?_, hlists.trans ⟨hkeeps.mode, hkeeps.file, hkeeps.relocations, hkeeps.symbols⟩⟩
    rw [hsame]

theorem Retried.isLaidOut (h : built.Retried again) : again.IsLaidOut :=
  (h.lists hbuilt).1 ▸ isLaidOut_of_context hbuilt again.context

theorem Retried.run_eq (h : built.Retried again) : again.run = built.run := by
  rw [(h.lists hbuilt).1]
  rfl

/-- A try that found nothing to relocate leaves nothing. -/
theorem Retried.emit_eq_of_empty (h : built.Retried again)
    (hempty : again.context.relocations = #[]) (sink : Sink) :
    again.emit sink = built.emit sink := by
  obtain ⟨hsame, hlists⟩ := h.lists hbuilt
  have hreset : again.context.reset = built.context.reset := by
    have hrelocations := hempty.trans hbuilt.relocations.symm
    have hsymbols := hlists.symbols hrelocations
    simp only [Context.reset, hlists.mode, hlists.file, hrelocations, hsymbols]
  rw [emit_eq_finish (h.isLaidOut hbuilt).stage, emit_eq_finish hbuilt.stage, hreset, hsame]
  rfl

end Retried

/-- The object file with what an earlier try left in `ctx`. -/
def resume (obj : ObjectFile) (ctx : Context) : ObjectFile :=
  { obj with context := obj.context.resume ctx.relocations ctx.symbols }

/-- A context is that of an object file that the first pass left, with tables of failed tries. -/
structure Resumes (built : ObjectFile) (ctx : Context) : Prop where
  reset : ctx.reset = built.context.reset.resume ctx.relocations ctx.symbols
  stopped : ctx.symbols = built.context.symbols ∨
    ∃ sink e s, built.run ⟨built.context.reset, sink⟩ = .error e s ∧ s.context.symbols = ctx.symbols
  listed : ∀ r ∈ ctx.relocations,
    ∃ sink e s, built.run ⟨built.context.reset, sink⟩ = .error e s ∧ r ∈ s.context.relocations

section Resumes

variable {built again : ObjectFile} {ctx : Context} (hbuilt : built.IsBuilt)
  (hrun : Emit.Resumable built.sections.length built.run)
include hbuilt hrun

/-- The second pass after failed tries, from that without. -/
theorem Resumes.run_eq (h : built.Resumes ctx) (sink : Sink) :
    built.run ⟨ctx.reset, sink⟩ =
      Emit.resumed ctx.relocations ctx.symbols (built.run ⟨built.context.reset, sink⟩) := by
  rw [h.reset]
  refine hrun.resumes hbuilt.isOpen ?_ ctx.relocations sink
  rcases h.stopped with hsame | ⟨v, e, s, hstop, hsymbols⟩
  · exact .before (hsame ▸ .refl _)
  · exact .within hstop hsymbols

theorem Resumes.grows (h : built.Resumes ctx) : built.context.symbols.Grows ctx.symbols := by
  rcases h.stopped with hsame | ⟨sink, e, s, hstop, hsymbols⟩
  · exact hsame ▸ .refl _
  · exact hsymbols ▸ (hrun.error hbuilt.isOpen hstop).2.grows

/-- A try that fails leaves the relocations of all tries, and the table of the one that came
furthest. -/
theorem Resumes.failed (h : built.Resumes ctx) {sink : Sink} {e : AssemblyError} {s : Emission}
    (herror : built.run ⟨ctx.reset, sink⟩ = .error e s) : built.Resumes s.context := by
  rw [h.run_eq hbuilt hrun] at herror
  cases hfresh : built.run ⟨built.context.reset, sink⟩ with
  | ok a t =>
    rw [hfresh] at herror
    cases herror
  | error e' t =>
    rw [hfresh] at herror
    cases herror
    obtain ⟨-, hcontinues⟩ := hrun.error hbuilt.isOpen hfresh
    have hlonger : t.context.symbols.longer ctx.symbols = ctx.symbols ∨
        t.context.symbols.longer ctx.symbols = t.context.symbols := by
      unfold SymbolTable.longer
      split
      · exact .inl rfl
      · exact .inr rfl
    have hgrows : built.context.symbols.Grows (t.context.symbols.longer ctx.symbols) := by
      rcases hlonger with hsame | hsame
      · rw [hsame]
        exact h.grows hbuilt hrun
      · rw [hsame]
        exact hcontinues.grows
    constructor
    · simp only [Context.reset, Context.resume, hcontinues.mode, hcontinues.file,
        hgrows.longer_eq, hbuilt.relocations, Array.append_empty]
    · rcases hlonger with hsame | hsame
      · rcases h.stopped with hnone | ⟨v, e, s, hstop, hsymbols⟩
        · exact .inl (hsame.trans hnone)
        · exact .inr ⟨v, e, s, hstop, hsymbols.trans hsame.symm⟩
      · exact .inr ⟨sink, e, t, hfresh, hsame.symm⟩
    · intro r hr
      rcases Array.mem_append.1 hr with hleft | hnew
      · exact h.listed r hleft
      · exact ⟨sink, e, t, hfresh, hnew⟩

/-- What failed tries leave is what one run leaves that stopped. -/
theorem Retried.resumes (h : built.Retried again) : built.Resumes again.context := by
  induction h with
  | none =>
    refine ⟨?_, .inl rfl, fun r hr => ?_⟩
    · simp only [Context.reset, Context.resume, hbuilt.relocations, Array.append_empty,
        (SymbolTable.Grows.refl built.context.symbols).longer_eq]
    · rw [hbuilt.relocations] at hr
      simp at hr
  | @failed obj sink h hstage ih =>
    obtain ⟨e, s, herror, hafter⟩ := run_of_emit_constructed (h.isLaidOut hbuilt) hstage
    rw [h.run_eq hbuilt] at herror
    rw [hafter]
    exact ih.failed hbuilt hrun herror

/-- On success the table of a try is behind, and so are its relocations. -/
theorem Resumes.ok (h : built.Resumes ctx) {sink : Sink} {n : Nat} {t : Emission}
    (hok : built.run ⟨built.context.reset, sink⟩ = .ok n t) :
    ctx.symbols.Grows t.context.symbols ∧
      ∀ r ∈ ctx.relocations, r ∈ t.context.relocations := by
  constructor
  · rcases h.stopped with hsame | ⟨v, e, s, hstop, hsymbols⟩
    · exact hsame ▸ (hrun.ok hbuilt.isOpen hok).2.grows
    · exact hsymbols ▸ (hrun.precedes hbuilt.isOpen hstop hok).grows
  · intro r hr
    obtain ⟨v, e, s, hstop, hmem⟩ := h.listed r hr
    obtain ⟨more, hmore⟩ := (hrun.precedes hbuilt.isOpen hstop hok).relocations
    rw [hmore]
    exact Array.mem_append_left more hmem

/-- The second pass after failed tries: the answer and the bytes are those of the first try. -/
theorem Retried.emit_eq (h : built.Retried again) (sink : Sink) :
    again.emit sink =
      ((built.emit sink).1, (built.emit sink).2.1.resume again.context, (built.emit sink).2.2) := by
  have hresumes := h.resumes hbuilt hrun
  obtain ⟨hsame, -⟩ := h.lists hbuilt
  rw [emit_eq_finish (h.isLaidOut hbuilt).stage, emit_eq_finish hbuilt.stage, h.run_eq hbuilt,
    hresumes.run_eq hbuilt hrun]
  cases hfresh : built.run ⟨built.context.reset, sink⟩ with
  | error e t =>
    rw [hsame]
    rfl
  | ok n t =>
    have htable : t.context.symbols.longer again.context.symbols = t.context.symbols :=
      (hresumes.ok hbuilt hrun hfresh).1.longer_eq_self
    rw [hsame]
    simp only [finish, Emit.resumed, Context.resume, htable]
    split <;> simp only [resume, Context.resume, htable]

end Resumes

/-- After tries that failed, the second pass gives the answer of a first try and writes the same
bytes. What the tries listed for relocation stays in front of what it lists, so that a relocation of
theirs is listed twice. The tries leave nothing if and only if they listed nothing. -/
theorem emit_retried {obj built again : ObjectFile} (h : obj.construct = (.ok (), built))
    (hretried : built.Retried again) :
    (again.context.relocations = #[] → ∀ sink, again.emit sink = built.emit sink) ∧
    ((∀ p ∈ built.placed, ∀ item ∈ p.items, item.IsFunctionFree) → ∀ sink,
      again.emit sink =
        ((built.emit sink).1, (built.emit sink).2.1.resume again.context, (built.emit sink).2.2) ∧
      (again.emit sink = built.emit sink ↔ again.context.relocations = #[]) ∧
      ((built.emit sink).2.1.stage = .emitted →
        (again.emit sink).2.1.context.symbols = (built.emit sink).2.1.context.symbols ∧
        ∀ r ∈ again.context.relocations, r ∈ (built.emit sink).2.1.context.relocations)) := by
  have hbuilt := IsBuilt.of_construct h
  refine ⟨hretried.emit_eq_of_empty hbuilt, fun hfree sink => ?_⟩
  have hrun : Emit.Resumable built.sections.length built.run :=
    of_closed built (Emit.closed_resumable _) fun p hp item hitem =>
      (hfree p hp item hitem).of_mem_fields
  have heq := hretried.emit_eq hbuilt hrun sink
  refine ⟨heq, ⟨fun hsame => ?_, fun hempty => hretried.emit_eq_of_empty hbuilt hempty sink⟩,
    fun hstage => ?_⟩
  · rw [hsame] at heq
    have hrelocations := congrArg (fun p => p.2.1.context.relocations) heq
    exact Array.self_eq_append_left.1 hrelocations
  · obtain ⟨n, t, hok, hdone⟩ := run_of_emit_emitted hbuilt.toIsLaidOut hstage
    obtain ⟨hgrows, hlisted⟩ := (hretried.resumes hbuilt hrun).ok hbuilt hrun hok
    rw [heq, hdone]
    exact ⟨hgrows.longer_eq_self, hlisted⟩

/-- Two imports behind a byte. -/
def twoImports : ObjectFile :=
  (ObjectFile.new .bit32 .relocatable).addSection
    { Section.new "data" .data with contents :=
        [.data (.bytes [1]), .data (.values .bit16 [.reference "near", .reference "far"])] }

/-- A try that failed before the first import leaves nothing. Tries that failed behind it leave
relocations, and the pass that succeeds lists these too. -/
theorem emit_retried_twoImports :
    ∃ built again later, twoImports.construct = (.ok (), built) ∧
      again = (built.emit (.new (some 0))).2.1 ∧ built.Retried again ∧
      again.emit (.new none) = built.emit (.new none) ∧
      built.Retried later ∧ later.context.relocations.size = 3 ∧
      (later.emit (.new none)).1 = .ok 5 ∧ later.emit (.new none) ≠ built.emit (.new none) := by
  have hbuilt : twoImports.construct = (.ok (), twoImports.construct.2) :=
    Prod.ext (eq_ok_of_toOption (by decide +kernel)) rfl
  have hfree : ∀ p ∈ twoImports.construct.2.placed, ∀ item ∈ p.items, item.IsFunctionFree := by
    have hplaced : twoImports.construct.2.placed =
        [⟨0, 5, [.raw (.literal [1]), .data (.absolute (.reference "near") .bit16),
          .data (.absolute (.reference "far") .bit16)]⟩] := rfl
    simp [hplaced, Item.IsFunctionFree, Field.absolute, Expr.IsFunctionFree]
  -- a try that stops at the byte, and two that stop in the imports
  have hagain : twoImports.construct.2.Retried _ :=
    .failed (.new (some 0)) .none (by decide +kernel)
  have hlater : twoImports.construct.2.Retried _ :=
    .failed (.new (some 2)) (.failed (.new (some 4)) .none (by decide +kernel)) (by decide +kernel)
  obtain ⟨heq, hclean, -⟩ := (emit_retried hbuilt hlater).2 hfree (.new none)
  refine ⟨_, _, _, hbuilt, rfl, hagain, (emit_retried hbuilt hagain).1 (by decide +kernel) _,
    hlater, by decide +kernel, ?_, fun hsame => ?_⟩
  · rw [heq]
    exact eq_ok_of_toOption (by decide +kernel)
  · exact absurd (hclean.1 hsame) (by decide +kernel)

/-- An import in two bytes. -/
def importedWord : ObjectFile :=
  (ObjectFile.new .bit32 .relocatable).addSection
    { Section.new "data" .data with contents := [.data (.values .bit16 [.reference "ext"])] }

/-- A relocation of a try that failed is listed again. -/
theorem emit_lists_twice :
    importedWord.construct.1.toOption = some () ∧
      let built := importedWord.construct.2
      let again := (built.emit (.new (some 1))).2.1
      again.stage = .constructed ∧
        (built.emit (.new none)).2.1.context.relocations.size = 1 ∧
        (again.emit (.new none)).2.1.context.relocations.size = 2 := by
  decide +kernel

end ObjectFile

end Assembler
