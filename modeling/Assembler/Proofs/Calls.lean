import Assembler.Proofs.ParallelLists
import Assembler.Proofs.Retry

/-!
# Calls in any order

An object file can be told at any time to take one more section, to run the first pass or to run the
second. `afterCalls` is what a list of such calls makes of it. What one call can do to the stage is
`step_stage`; what it keeps is `IsAfter.step`, and from that `isAfter_afterCalls` says what any
calls keep of an object file that began without sections.

The same calls make of a `SplitObject` what they make of the object file, split: one call by
`step_split`, and so any calls by `SplitObject.afterCalls_eq_split`.

Main statement: `passes_run_in_order`.
-/

namespace Assembler

theorem AssemblyError.IsOfWriting.ne_container {e : AssemblyError} (h : e.IsOfWriting)
    (cause : ContainerError) : e ≠ .container cause := by
  rintro rfl
  exact h

namespace ObjectFile

/-- Something that an object file is told to do. -/
inductive Call
  | addSection (s : Section)
  | construct
  | emit (sink : Sink)

/-- The section that a call adds. -/
def Call.section? : Call → Option Section
  | .addSection s => some s
  | _ => none

/-- The sections that calls add, in order. -/
def addedBy (calls : List Call) : List Section := calls.filterMap Call.section?

/-- The object file after a call. -/
def step (obj : ObjectFile) : Call → ObjectFile
  | .addSection s => obj.addSection s
  | .construct => obj.construct.2
  | .emit sink => (obj.emit sink).2.1

/-- The object file after calls, one after the other. -/
def afterCalls (obj : ObjectFile) (calls : List Call) : ObjectFile := calls.foldl step obj

theorem afterCalls_cons (obj : ObjectFile) (call : Call) (calls : List Call) :
    obj.afterCalls (call :: calls) = (obj.step call).afterCalls calls := rfl

theorem afterCalls_append (obj : ObjectFile) (a b : List Call) :
    obj.afterCalls (a ++ b) = (obj.afterCalls a).afterCalls b :=
  List.foldl_append

theorem addedBy_cons (call : Call) (calls : List Call) :
    addedBy (call :: calls) = addedBy [call] ++ addedBy calls := by
  rw [addedBy, addedBy, addedBy, ← List.filterMap_append]
  rfl

/-- An object file that has all its sections from the start. -/
def ofSections (mode : Mode) (container : Container) (sections : List Section) : ObjectFile :=
  { new mode container with sections := sections }

/-! ## The passes -/

theorem stage_construct_of_ok {obj : ObjectFile} (h : obj.construct.1 = .ok ()) :
    obj.stage = .fresh ∧ obj.construct.2.stage = .constructed := by
  refine ⟨Decidable.by_contra fun hstage => ?_, (construct_ok (Prod.ext h rfl)).2.2.1⟩
  rw [construct_of_ne_fresh hstage] at h
  cases h

/-- The bytes that the second pass hands over. -/
def image (obj : ObjectFile) : List UInt8 := Emit.output obj.run obj.context.reset

/-- A run that succeeds hands over the image, to any sink. -/
theorem run_writes_image {obj : ObjectFile} (hfilled : ∀ p ∈ obj.placed, p.IsFilled) {sink : Sink}
    {n : Nat} {t : Emission} (hrun : obj.run ⟨obj.context.reset, sink⟩ = .ok n t) :
    n = obj.image.length ∧ Emit.Writes obj.run ⟨obj.context.reset, sink⟩ n t obj.image := by
  obtain ⟨bytes, hlength, hwrites⟩ :=
    emitSections_writes (fun sp hsp => hfilled sp.2 (List.of_mem_zip hsp).2) hrun
  have himage : obj.image = bytes := hwrites.output
  rw [Nat.zero_add] at hlength
  rw [himage]
  exact ⟨hlength, hwrites⟩

/-- A second pass in its turn that fails does so while it writes, and can be tried again, or when
the container is asked, and then everything is written. -/
theorem emit_error_cases {obj : ObjectFile} (hfilled : ∀ p ∈ obj.placed, p.IsFilled)
    (h : obj.stage = .constructed) {sink : Sink} {e : AssemblyError}
    (he : (obj.emit sink).1 = .error e) :
    (e.IsOfWriting ∧ (obj.emit sink).2.1.stage = .constructed) ∨
      ∃ cause n t, e = .container cause ∧ obj.run ⟨obj.context.reset, sink⟩ = .ok n t ∧
        (obj.emit sink).2 = ({ obj with context := t.context, stage := .emitted }, t.sink) := by
  rw [emit_eq_finish h] at he ⊢
  cases hrun : obj.run ⟨obj.context.reset, sink⟩ with
  | error e' s =>
    rw [hrun] at he
    cases he
    refine .inl ⟨?_, h⟩
    exact emitSections_isOfWriting (fun sp hsp => hfilled sp.2 (List.of_mem_zip hsp).2) hrun
  | ok n s =>
    rw [hrun] at he
    rw [finish] at he ⊢
    dsimp only at he ⊢
    cases hcheck : obj.container.check s.context.symbols obj.sections with
    | error cause =>
      rw [hcheck] at he
      cases he
      exact .inr ⟨cause, n, s, rfl, rfl, rfl⟩
    | ok u =>
      rw [hcheck] at he
      cases he

/-! ## One call -/

/-- A call leaves the stage alone or moves it one further. -/
theorem step_stage (obj : ObjectFile) (call : Call) :
    (obj.step call).stage = obj.stage ∨
      (call = .construct ∧ obj.construct.1 = .ok () ∧ obj.stage = .fresh ∧
        (obj.step call).stage = .constructed) ∨
      ((∃ sink, call = .emit sink) ∧ obj.stage = .constructed ∧
        (obj.step call).stage = .emitted) := by
  cases call with
  | addSection s => exact .inl rfl
  | construct =>
    by_cases hstage : obj.stage = .fresh
    · cases hresult : obj.construct.1 with
      | error e => exact .inl ((stage_construct_of_error hstage hresult).trans hstage.symm)
      | ok u => exact .inr (.inl ⟨rfl, rfl, hstage, (stage_construct_of_ok hresult).2⟩)
    · refine .inl ?_
      rw [step, construct_of_ne_fresh hstage]
  | emit sink =>
    by_cases hstage : obj.stage = .constructed
    · rcases emit_object hstage sink with ⟨e, s, -, hafter⟩ | ⟨n, s, -, hafter⟩
      · refine .inl ?_
        rw [step, hafter]
      · refine .inr (.inr ⟨⟨sink, rfl⟩, hstage, ?_⟩)
        rw [step, hafter]
    · refine .inl ?_
      rw [step, emit_of_ne_constructed hstage]

/-- The first pass is never undone. -/
theorem step_stage_ne_fresh {obj : ObjectFile} (h : obj.stage ≠ .fresh) (call : Call) :
    (obj.step call).stage ≠ .fresh := by
  rcases obj.step_stage call with hsame | ⟨-, -, hfresh, -⟩ | ⟨-, -, hemitted⟩
  · rwa [hsame]
  · exact absurd hfresh h
  · rw [hemitted]
    nofun

/-- What calls keep of an object file that began without sections. -/
structure IsAfter (mode : Mode) (container : Container) (sections : List Section)
    (cur : ObjectFile) : Prop where
  sections : cur.sections = sections
  container : cur.container = container
  mode : cur.context.mode = mode
  /-- A place is that of a section. -/
  length : cur.placed.length ≤ cur.sections.length
  filled : ∀ p ∈ cur.placed, p.IsFilled

section IsAfter

variable {mode : Mode} {container : Container} {sections : List Section} {cur : ObjectFile}

/-- A section that is added stands behind those that were added before. -/
theorem IsAfter.addSection (h : IsAfter mode container sections cur) (s : Section) :
    IsAfter mode container (sections ++ [s]) (cur.addSection s) where
  sections := by
    rw [← h.sections]
    rfl
  container := h.container
  mode := h.mode
  length := by
    have hlen := h.length
    show cur.placed.length ≤ (cur.sections ++ [s]).length
    rw [List.length_append]
    omega
  filled := h.filled

theorem IsAfter.construct (h : IsAfter mode container sections cur) :
    IsAfter mode container sections cur.construct.2 := by
  by_cases hstage : cur.stage = .fresh
  · obtain ⟨hlen, -, hfilled⟩ := constructSections_filled cur.sections 0 0 (.new cur.context.mode)
    have hmode := (constructSections_frames cur.sections 0 0 [] (.new cur.context.mode)).mode
    rw [construct_of_fresh hstage]
    exact ⟨h.sections, h.container, hmode.trans h.mode, hlen, hfilled⟩
  · rw [construct_of_ne_fresh hstage]
    exact h

theorem IsAfter.emit (h : IsAfter mode container sections cur) (sink : Sink) :
    IsAfter mode container sections (cur.emit sink).2.1 := by
  by_cases hstage : cur.stage = .constructed
  · have hkeeps := of_closed cur (Emit.closed_lists _) (fun _ _ _ _ _ _ => trivial)
      ⟨cur.context.reset, sink⟩
    rw [emit_eq_after hstage]
    exact ⟨h.sections, h.container, hkeeps.mode.trans h.mode, h.length, h.filled⟩
  · rw [emit_of_ne_constructed hstage]
    exact h

theorem IsAfter.step (h : IsAfter mode container sections cur) (call : Call) :
    IsAfter mode container (sections ++ addedBy [call]) (cur.step call) := by
  cases call with
  | addSection s => exact h.addSection s
  | construct =>
    rw [show addedBy [.construct] = [] from rfl, List.append_nil]
    exact h.construct
  | emit sink =>
    rw [show addedBy [.emit sink] = [] from rfl, List.append_nil]
    exact h.emit sink

theorem IsAfter.afterCalls (h : IsAfter mode container sections cur) (calls : List Call) :
    IsAfter mode container (sections ++ addedBy calls) (cur.afterCalls calls) := by
  induction calls generalizing sections cur with
  | nil =>
    rw [show addedBy [] = [] from rfl, List.append_nil]
    exact h
  | cons call calls ih =>
    rw [addedBy_cons, ← List.append_assoc, afterCalls_cons]
    exact ih (h.step call)

end IsAfter

/-! ## Any calls -/

/-- The object file is empty at first, and holds the sections that the calls added. -/
theorem isAfter_afterCalls (mode : Mode) (container : Container) (calls : List Call) :
    IsAfter mode container (addedBy calls) ((new mode container).afterCalls calls) := by
  have hnew : IsAfter mode container [] (new mode container) :=
    ⟨rfl, rfl, rfl, Nat.le_refl 0, nofun⟩
  exact hnew.afterCalls calls

theorem afterCalls_stage_ne_fresh {obj : ObjectFile} (h : obj.stage ≠ .fresh)
    (calls : List Call) : (obj.afterCalls calls).stage ≠ .fresh := by
  induction calls generalizing obj with
  | nil => exact h
  | cons call calls ih => exact ih (step_stage_ne_fresh h call)

/-- Until the first pass succeeds, all that calls have done is to add sections. -/
theorem IsAfter.construct_eq {mode : Mode} {container : Container} {sections : List Section}
    {cur : ObjectFile} (h : IsAfter mode container sections cur) (hstage : cur.stage = .fresh) :
    cur.construct = (ofSections mode container sections).construct := by
  have hfresh : (ofSections mode container sections).stage = .fresh := rfl
  rw [construct_of_fresh hstage, construct_of_fresh hfresh, h.sections, h.mode, h.container]
  rfl

end ObjectFile

/-! ## Calls and two lists -/

namespace SplitObject

/-- The object file with two lists after a call. -/
def step (x : SplitObject) : ObjectFile.Call → SplitObject
  | .addSection s => x.addSection s
  | .construct => stateAfter construct x
  | .emit sink => (stateAfter emit ⟨x, sink⟩).object

/-- The object file with two lists after calls, one after the other. -/
def afterCalls (x : SplitObject) (calls : List ObjectFile.Call) : SplitObject := calls.foldl step x

/-- A call makes the same of both forms of an object file whose records belong to sections. -/
theorem step_split {obj : ObjectFile} (hlength : obj.placed.length ≤ obj.sections.length)
    (call : ObjectFile.Call) : obj.split.step call = (obj.step call).split := by
  cases call with
  | addSection s => rfl
  | construct =>
    rw [step, stateAfter, construct_split, ObjectFile.step]
    obtain ⟨result, after⟩ := obj.construct
    cases result <;> rfl
  | emit sink =>
    rw [step, stateAfter, emit_split hlength, ObjectFile.step, ObjectFile.emit]
    obtain ⟨result, after, out⟩ := obj.emitTo sink
    cases result <;> rfl

theorem afterCalls_split {mode : Mode} {container : Container} {sections : List Section}
    {obj : ObjectFile} (h : ObjectFile.IsAfter mode container sections obj)
    (calls : List ObjectFile.Call) : obj.split.afterCalls calls = (obj.afterCalls calls).split := by
  induction calls generalizing sections obj with
  | nil => rfl
  | cons call calls ih =>
    rw [ObjectFile.afterCalls_cons, ← ih (h.step call), ← step_split h.length call]
    rfl

/-- Any calls make of two lists what they make of the records. -/
theorem afterCalls_eq_split (mode : Mode) (container : Container) (calls : List ObjectFile.Call) :
    (new mode container).afterCalls calls =
      ((ObjectFile.new mode container).afterCalls calls).split :=
  afterCalls_split (ObjectFile.isAfter_afterCalls mode container []) calls

end SplitObject

namespace ObjectFile

/-- Whatever calls an object file had, in whatever order, from when it was empty:

* A call leaves the stage alone or moves it from fresh to constructed, by a first pass, or from
  constructed to emitted, by a second.
* A first pass that succeeds is the last one that does.
* A pass out of turn is refused, and nothing changes.
* A first pass in its turn, whatever first passes failed before it, is that of a new object file
  with the same sections: the answer is the same, and so is everything that it leaves. If it fails,
  the stage stays.
* A second pass in its turn that fails moves the stage if and only if it is the container that
  refuses.
* Every place belongs to a section, and the second pass pairs every place with its section.
* An object file that keeps layouts and items in two lists is what the same calls make of it, split:
  it has as many layouts as items, and no more than sections. Both passes answer alike and leave the
  same, whatever the writer does, so that the second never looks for a section behind the last. -/
theorem passes_run_in_order (mode : Mode) (container : Container) (calls : List Call) :
    let cur := (new mode container).afterCalls calls
    (∀ call, (cur.step call).stage = cur.stage ∨
      (call = .construct ∧ cur.construct.1 = .ok () ∧ cur.stage = .fresh ∧
        (cur.step call).stage = .constructed) ∨
      ((∃ sink, call = .emit sink) ∧ cur.stage = .constructed ∧
        (cur.step call).stage = .emitted)) ∧
    (cur.construct.1 = .ok () → ∀ more, ∃ stage,
      ((cur.step .construct).afterCalls more).construct.1 = .error (.wrongStage .construct stage)) ∧
    (cur.stage ≠ .fresh → cur.construct = (.error (.wrongStage .construct cur.stage), cur)) ∧
    (cur.stage ≠ .constructed → ∀ sink,
      cur.emit sink = (.error (.wrongStage .emit cur.stage), cur, sink)) ∧
    (cur.stage = .fresh →
      cur.construct = (ofSections mode container (addedBy calls)).construct ∧
      ∀ e, cur.construct.1 = .error e → cur.construct.2.stage = .fresh) ∧
    (cur.stage = .constructed → ∀ sink e, (cur.emit sink).1 = .error e →
      ((∃ cause, e = .container cause) → (cur.emit sink).2.1.stage = .emitted) ∧
      ((¬ ∃ cause, e = .container cause) → (cur.emit sink).2.1.stage = .constructed)) ∧
    cur.placed.length ≤ cur.sections.length ∧
    (cur.sections.zip cur.placed).map Prod.snd = cur.placed ∧
    let lists := (SplitObject.new mode container).afterCalls calls
    lists = cur.split ∧ lists.layouts.length = lists.items.length ∧
      lists.layouts.length ≤ lists.sections.length ∧
      SplitObject.construct lists = splitAnswer cur.construct ∧
      ∀ (W : Type) [Writer W] (sink : W),
        SplitObject.emit ⟨lists, sink⟩ = splitOutcome (cur.emitTo sink) ∧
          ∀ index after, SplitObject.emit ⟨lists, sink⟩ ≠ .error (.outOfBounds index) after := by
  intro cur
  have hcur : IsAfter mode container (addedBy calls) cur := isAfter_afterCalls mode container calls
  refine ⟨cur.step_stage, fun hok more => ?_, construct_of_ne_fresh, emit_of_ne_constructed,
    fun hstage => ⟨hcur.construct_eq hstage, fun e => stage_construct_of_error hstage⟩,
    fun hstage sink e he => ?_, hcur.length, List.map_snd_zip hcur.length, ?_⟩
  · have hbuilt : (cur.step .construct).stage ≠ .fresh := by
      rw [show (cur.step .construct).stage = .constructed from (stage_construct_of_ok hok).2]
      nofun
    refine ⟨((cur.step .construct).afterCalls more).stage, ?_⟩
    rw [construct_of_ne_fresh (afterCalls_stage_ne_fresh hbuilt more)]
  · rcases emit_error_cases hcur.filled hstage he with
      ⟨hwriting, hkept⟩ | ⟨cause, n, t, rfl, -, hafter⟩
    · exact ⟨fun ⟨cause, hcause⟩ => absurd hcause (hwriting.ne_container cause), fun _ => hkept⟩
    · refine ⟨fun _ => ?_, fun hnot => absurd ⟨cause, rfl⟩ hnot⟩
      rw [hafter]
  · intro lists
    have hlists : lists = cur.split := SplitObject.afterCalls_eq_split mode container calls
    have hlength : lists.layouts.length ≤ lists.sections.length := by
      rw [hlists, split, List.length_map]
      exact hcur.length
    rw [hlists] at hlength ⊢
    refine ⟨rfl, cur.length_layouts_split, hlength, SplitObject.construct_split cur, ?_⟩
    intro W _ sink
    have hemit := SplitObject.emit_split hcur.length sink
    refine ⟨hemit, fun index after hfault => ?_⟩
    rw [hemit] at hfault
    exact splitOutcome_ne_outOfBounds _ index after hfault

/-- One byte, under a name that other assemblies can use. -/
def exporting : Section :=
  { Section.new "text" .text with contents := [.label "main" .exported, .data (.bytes [0xc3])] }

/-- A section behind it that gives the name again. -/
def clashing : Section :=
  { Section.new "more" .text with contents := [.data (.bytes [0x90]), .label "main" .internal] }

/-- Both sections, after a first pass that failed in the second. -/
def tried : ObjectFile :=
  (new .bit32 .flat).afterCalls [.addSection exporting, .addSection clashing, .construct]

/-- The first section alone, after a first pass. The image has nowhere to put the name. -/
def nameless : ObjectFile := (new .bit32 .flat).afterCalls [.addSection exporting, .construct]

/-- The first pass can be tried again until it succeeds, and the second until everything is written.
A first pass that failed left one layout and the items of one section. -/
theorem passes_run_in_order_exporting :
    tried.construct = (ofSections .bit32 .flat [exporting, clashing]).construct ∧
      tried.construct.1 = .error (.duplicateSymbol "main") ∧
      tried.construct.2.stage = .fresh ∧ tried.placed.length = 1 ∧
      (SplitObject.new .bit32 .flat).afterCalls
        [.addSection exporting, .addSection clashing, .construct] = tried.split ∧
      tried.split.layouts.length = 1 ∧ tried.split.items.length = 1 ∧
    nameless.construct = (.error (.wrongStage .construct .constructed), nameless) ∧
      (nameless.emit (.new none)).1 = .error (.container (.exportedSymbol "main")) ∧
      (nameless.emit (.new none)).2.1.stage = .emitted := by
  obtain ⟨-, -, -, -, hfirst, -, -, -, hlists, hlength, -⟩ := passes_run_in_order .bit32 .flat
    [.addSection exporting, .addSection clashing, .construct]
  obtain ⟨-, -, hrefused, -, -, hsecond, -⟩ := passes_run_in_order .bit32 .flat
    [.addSection exporting, .construct]
  obtain ⟨heq, hstays⟩ := hfirst rfl
  have hone : tried.split.layouts.length = 1 := rfl
  rw [hlists] at hlength
  have hclash : tried.construct.1 = .error (.duplicateSymbol "main") := rfl
  have hname : (nameless.emit (.new none)).1 = .error (.container (.exportedSymbol "main")) := rfl
  exact ⟨heq, hclash, hstays _ hclash, rfl, hlists, hone, hlength.symm.trans hone, hrefused nofun,
    hname, (hsecond rfl _ _ hname).1 ⟨_, rfl⟩⟩

end ObjectFile

end Assembler
