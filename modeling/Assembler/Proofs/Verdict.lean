import Assembler.Proofs.Calls

/-!
# The verdict of the container

No pass looks at the container. It is asked once, when the second pass has written everything, and
all it can do is to turn a success into an error. `emit_eq_judge` says so of one second pass: it is
that of a container that can express everything, with the answer judged. Object files that differ in
the container alone therefore stay so under any calls.

Main statement: `container_only_judges`.
-/

namespace Assembler

namespace Container

/-- A container that can express everything. -/
def unrestricted : Container := ⟨true, true, true⟩

/-- The answer to a second pass, when everything is written or a section failed. -/
def judge (c : Container) (symbols : SymbolTable) (sections : List Section) :
    Except AssemblyError Nat → Except AssemblyError Nat
  | .error e => .error e
  | .ok n =>
    match c.check symbols sections with
    | .error e => .error (.container e)
    | .ok () => .ok n

/-- A container that can express everything takes everything. -/
theorem check_unrestricted (symbols : SymbolTable) (sections : List Section) :
    unrestricted.check symbols sections = .ok () := by
  have hsymbols : symbols.symbols.findSome? unrestricted.symbolFault? = none := by
    rw [List.findSome?_eq_none_iff]
    intro s _
    unfold symbolFault?
    cases s.kind <;> simp [unrestricted]
  have hsections : sections.findSome? unrestricted.sectionFault? = none := by
    rw [List.findSome?_eq_none_iff]
    intro s _
    simp [sectionFault?, unrestricted]
  rw [check, hsymbols, hsections]
  rfl

variable {c : Container} {symbols : SymbolTable} {sections : List Section}
  {answer : Except AssemblyError Nat}

/-- A container that judges does not touch the errors of the pass. -/
theorem judge_eq_error_iff {e : AssemblyError} (he : ∀ cause, e ≠ .container cause) :
    c.judge symbols sections answer = .error e ↔ answer = .error e := by
  cases answer with
  | error e' => exact Iff.rfl
  | ok n =>
    rw [judge]
    cases c.check symbols sections with
    | error cause => simpa using (he cause).symm
    | ok u => simp

theorem judge_ok_cases (c : Container) (symbols : SymbolTable) (sections : List Section) (n : Nat) :
    c.judge symbols sections (.ok n) = .ok n ∨
      ∃ cause, c.judge symbols sections (.ok n) = .error (.container cause) := by
  rw [judge]
  cases c.check symbols sections with
  | error cause => exact .inr ⟨cause, rfl⟩
  | ok u => exact .inl rfl

theorem eq_ok_of_judge {n : Nat} (h : c.judge symbols sections answer = .ok n) :
    answer = .ok n := by
  cases answer with
  | error e => cases h
  | ok m =>
    rcases c.judge_ok_cases symbols sections m with hm | ⟨cause, hm⟩
    · rw [← hm, h]
    · rw [hm] at h
      cases h

end Container

namespace ObjectFile

/-- The object file, for another container. -/
def withContainer (obj : ObjectFile) (c : Container) : ObjectFile := { obj with container := c }

variable (obj : ObjectFile) (c : Container)

/-! ## One call -/

theorem construct_withContainer :
    (obj.withContainer c).construct = (obj.construct.1, obj.construct.2.withContainer c) := by
  have hstage : (obj.withContainer c).stage = obj.stage := rfl
  by_cases hfresh : obj.stage = .fresh
  · rw [construct_of_fresh hfresh, construct_of_fresh (hstage.trans hfresh)]
    rfl
  · rw [construct_of_ne_fresh hfresh, construct_of_ne_fresh (hstage ▸ hfresh)]
    rfl

/-- The second pass is that of a container that can express everything, and then the container
judges it. -/
theorem emit_eq_judge (sink : Sink) :
    let free := (obj.withContainer .unrestricted).emit sink
    obj.emit sink =
      (obj.container.judge free.2.1.context.symbols obj.sections free.1,
        free.2.1.withContainer obj.container, free.2.2) := by
  intro free
  have hstage : (obj.withContainer .unrestricted).stage = obj.stage := rfl
  by_cases hturn : obj.stage = .constructed
  · have hfree : free = (obj.withContainer .unrestricted).finish
        (obj.run ⟨obj.context.reset, sink⟩) :=
      emit_eq_finish (hstage.trans hturn) sink
    rw [hfree, emit_eq_finish hturn]
    cases obj.run ⟨obj.context.reset, sink⟩ with
    | error e t => rfl
    | ok n t =>
      -- the free container says yes, so that what is judged is the count
      have hok : (obj.withContainer .unrestricted).finish (.ok n t) =
          (.ok n, { obj with
            container := .unrestricted, context := t.context, stage := .emitted }, t.sink) := by
        show (match Container.unrestricted.check t.context.symbols obj.sections with
          | .error e => _
          | .ok () => _) = _
        rw [Container.check_unrestricted]
        rfl
      rw [hok, finish, Container.judge]
      dsimp only
      cases obj.container.check t.context.symbols obj.sections <;> rfl
  · have hfree : free =
        (.error (.wrongStage .emit obj.stage), obj.withContainer .unrestricted, sink) :=
      emit_of_ne_constructed (hstage ▸ hturn) sink
    rw [hfree, emit_of_ne_constructed hturn]
    rfl

theorem emit_withContainer (sink : Sink) :
    ((obj.withContainer c).emit sink).2 =
      ((obj.emit sink).2.1.withContainer c, (obj.emit sink).2.2) := by
  rw [emit_eq_judge (obj.withContainer c), emit_eq_judge obj]
  rfl

theorem step_withContainer (call : Call) :
    (obj.withContainer c).step call = (obj.step call).withContainer c := by
  cases call with
  | addSection s => rfl
  | construct =>
    rw [step, construct_withContainer]
    rfl
  | emit sink =>
    rw [step, emit_withContainer]
    rfl

/-! ## Any calls -/

theorem afterCalls_withContainer (calls : List Call) :
    (obj.withContainer c).afterCalls calls = (obj.afterCalls calls).withContainer c := by
  induction calls generalizing obj with
  | nil => rfl
  | cons call calls ih => rw [afterCalls_cons, afterCalls_cons, step_withContainer, ih]

/-- If it is the container that refuses, everything is written. -/
theorem written_of_container_error {obj : ObjectFile} (hfilled : ∀ p ∈ obj.placed, p.IsFilled)
    {sink : Sink} {cause : ContainerError} (h : (obj.emit sink).1 = .error (.container cause)) :
    (obj.emit sink).2.1.stage = .emitted ∧ (obj.emit sink).2.2 = sink.push obj.image ∧
      ((obj.withContainer .unrestricted).emit sink).1 = .ok obj.image.length := by
  have hturn : obj.stage = .constructed := by
    refine Decidable.by_contra fun hturn => ?_
    rw [emit_of_ne_constructed hturn] at h
    cases h
  rcases emit_error_cases hfilled hturn h with ⟨hwriting, -⟩ | ⟨cause, n, t, -, hrun, hafter⟩
  · exact absurd rfl (hwriting.ne_container cause)
  · obtain ⟨rfl, hwrites⟩ := run_writes_image hfilled hrun
    have hfree : (obj.withContainer .unrestricted).emit sink =
        (.ok obj.image.length, { obj with
          container := .unrestricted, context := t.context, stage := .emitted }, t.sink) :=
      emit_eq_ok_iff.2 ⟨hturn, t, hrun, Container.check_unrestricted _ _, rfl, rfl⟩
    rw [hafter, hfree]
    exact ⟨rfl, hwrites.sink, rfl⟩

/-- Two object files for different containers, after the same calls: sections added, first passes
and second passes, in any order and with any outcome.

* They differ in the container alone.
* A first pass answers the same and leaves the same.
* A second pass leaves the same, in the object file and in the sink.
* A second pass that fails for one of them fails for the other with the same error, unless it is the
  container that refuses. If it succeeds for one of them, then it succeeds for the other with as
  many bytes, or the other container refuses.
* A container refuses when the second pass is over: the sink has all the bytes of the image, as
  many as are counted if nothing is refused. -/
theorem container_only_judges (mode : Mode) (c₁ c₂ : Container) (calls : List Call) (sink : Sink) :
    let one := (new mode c₁).afterCalls calls
    let two := (new mode c₂).afterCalls calls
    one = two.withContainer c₁ ∧
    one.construct = (two.construct.1, two.construct.2.withContainer c₁) ∧
    (one.emit sink).2.1 = (two.emit sink).2.1.withContainer c₁ ∧
    (one.emit sink).2.2 = (two.emit sink).2.2 ∧
    (∀ e, (∀ cause, e ≠ .container cause) →
      ((one.emit sink).1 = .error e ↔ (two.emit sink).1 = .error e)) ∧
    (∀ n, (one.emit sink).1 = .ok n →
      (two.emit sink).1 = .ok n ∨ ∃ cause, (two.emit sink).1 = .error (.container cause)) ∧
    (∀ cause, (one.emit sink).1 = .error (.container cause) →
      (one.emit sink).2.1.stage = .emitted ∧ (one.emit sink).2.2 = sink.push one.image ∧
        ((one.withContainer .unrestricted).emit sink).1 = .ok one.image.length) := by
  intro one two
  have hone : one = two.withContainer c₁ := afterCalls_withContainer (new mode c₂) c₁ calls
  have hjudged : (one.emit sink).1 =
      one.container.judge ((two.withContainer .unrestricted).emit sink).2.1.context.symbols
        two.sections ((two.withContainer .unrestricted).emit sink).1 := by
    rw [emit_eq_judge one, hone]
    rfl
  have htwo := congrArg Prod.fst (emit_eq_judge two sink)
  dsimp only at htwo
  refine ⟨hone, ?_, ?_, ?_, fun e he => ?_, fun n hn => ?_, fun cause => ?_⟩
  · rw [hone, construct_withContainer]
  · rw [hone, emit_withContainer]
  · rw [hone, emit_withContainer]
  · rw [hjudged, htwo, Container.judge_eq_error_iff he, Container.judge_eq_error_iff he]
  · rw [hjudged] at hn
    rw [htwo, Container.eq_ok_of_judge hn]
    exact Container.judge_ok_cases _ _ _ n
  · exact written_of_container_error (isAfter_afterCalls mode c₁ calls).filled

/-- The name goes into an object for a linker and not into an image alone. The byte is in the sink
either way, which has room for no other. -/
theorem container_only_judges_exporting :
    let calls := [.addSection exporting, .construct]
    let image := (new .bit32 .flat).afterCalls calls
    let linkable := (new .bit32 .relocatable).afterCalls calls
    (image.emit (.new (some 1))).1 = .error (.container (.exportedSymbol "main")) ∧
      (linkable.emit (.new (some 1))).1 = .ok 1 ∧
      (image.emit (.new (some 1))).2.2 = (linkable.emit (.new (some 1))).2.2 ∧
      (image.emit (.new (some 1))).2.1.stage = .emitted ∧
      (image.emit (.new (some 1))).2.2 = .buffer (some 1) #[0xc3] := by
  intro calls image linkable
  obtain ⟨-, -, -, hsame, -, -, hrefuses⟩ :=
    container_only_judges .bit32 .flat .relocatable calls (.new (some 1))
  have hrefused : (image.emit (.new (some 1))).1 = .error (.container (.exportedSymbol "main")) :=
    rfl
  have haccepted : (linkable.emit (.new (some 1))).1 = .ok 1 := rfl
  exact ⟨hrefused, haccepted, hsame, (hrefuses _ hrefused).1, by decide +kernel⟩

end ObjectFile

end Assembler
