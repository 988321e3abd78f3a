import Assembler.Proofs.Calls
import Assembler.Proofs.Truncation

/-!
# Writers of any kind

The second pass hands its bytes over in runs, and stops at the first run that its writer refuses.
`LawfulWriter` is what it relies on: a writer that takes a run takes all of it, and one that refuses
a run has taken less than all of it. How a writer keeps the bytes, and why it refuses them, is its
own matter.

A pass to a lawful writer is a pass to a buffer. `Emit.Mirrors` says so of a step: a buffer with
room for the bytes that the writer took, and for no others if the writer refused one, gives the same
answer and leaves the same tables. It holds of each step of the second pass, and passes to the whole
of it.

* `ObjectFile.emitTo_eq_emit`: the second pass to a lawful writer, and to buffers.
* `ObjectFile.exists_afterCalls`: what calls with lawful writers make of an object file, calls with
  buffers make of it too.
-/

namespace Assembler

/-! ## The promise of a writer -/

/-- What a writer promises. `Took w bytes after` says that `w` became `after` by taking `bytes`. -/
structure LawfulWriter (W : Type) [Writer W] (Took : W → List UInt8 → W → Prop) : Prop where
  nil : ∀ w, Took w [] w
  append : ∀ {u v w first rest}, Took u first v → Took v rest w → Took u (first ++ rest) w
  /-- A run that is not refused is taken. -/
  written : ∀ {w after run}, Writer.write w run = (after, true) → Took w run.toList after
  /-- Of a run that is refused, a part is taken that is not the whole. -/
  refused : ∀ {w after run}, Writer.write w run = (after, false) →
    ∃ n < run.length, Took w (run.toList.take n) after

namespace Sink

/-- The sink has no room. -/
def IsFull (sink : Sink) : Prop := ∀ bytes, sink.Takes bytes → bytes = []

/-- A full sink keeps nothing of what it is offered. -/
theorem offer_of_isFull {sink : Sink} (h : sink.IsFull) (bytes : List UInt8) :
    sink.offer bytes = sink := by
  match sink with
  | .discard => rfl
  | .buffer none kept => cases h [0] trivial
  | .buffer (some limit) kept =>
    have hroom : limit - kept.size = 0 := by
      refine Decidable.by_contra fun hroom => ?_
      have htakes : (Sink.buffer (some limit) kept).Takes [0] := Nat.one_le_iff_ne_zero.2 hroom
      cases h [0] htakes
    simp [offer, hroom]

/-- A sink that can take the first part of a run and nothing more refuses the run. -/
theorem write_of_isFull {sink : Sink} {run : Run} {n : Nat} (hn : n < run.length)
    (htakes : sink.Takes (run.toList.take n)) (hfull : (sink.offer (run.toList.take n)).IsFull) :
    sink.write run = (sink.offer (run.toList.take n), false) := by
  have hsplit : run.toList.take n ++ run.toList.drop n = run.toList := List.take_append_drop n _
  have hnot : ¬ sink.Takes run.toList := by
    rw [← hsplit, takes_append]
    rintro ⟨-, hrest⟩
    have hlength := congrArg List.length (hfull _ hrest)
    rw [List.length_drop, run.length_toList, List.length_nil] at hlength
    omega
  have hoffer : sink.offer run.toList = sink.offer (run.toList.take n) := by
    rw [← hsplit, ← offer_append htakes, offer_of_isFull hfull, hsplit]
  rw [write_of_not_takes hnot, hoffer]

/-- The sinks of the command line are lawful. -/
theorem isLawful : LawfulWriter Sink fun sink bytes after => after = sink.push bytes where
  nil sink := sink.push_nil.symm
  append {u v w first rest} hfirst hrest := by rw [hrest, hfirst, push_push]
  written h := eq_push_of_write h
  refused {sink after run} h := by
    have hnot : ¬ sink.Takes run.toList := by
      intro htakes
      have htaken : sink.write run = (sink.offer run.toList, true) := write_of_takes htakes
      rw [show Writer.write sink run = sink.write run from rfl, htaken] at h
      cases h
    have hrefused : sink.write run = (after, false) := h
    rw [write_of_not_takes hnot] at hrefused
    cases hrefused
    match sink with
    | .discard => exact absurd trivial hnot
    | .buffer none kept => exact absurd trivial hnot
    | .buffer (some limit) kept =>
      refine ⟨limit - kept.size, ?_, rfl⟩
      rw [← run.length_toList]
      exact Nat.not_le.1 hnot

end Sink

/-! ## Steps to a writer and to a buffer -/

namespace Emit

variable {α β W : Type}

/-- A step to a writer and a step to a sink. Whatever the first comes to, the second comes to it
with a sink that has room for the bytes that the writer took; and for no more than these, if the
writer refused one. -/
structure Mirrors (Took : W → List UInt8 → W → Prop) (m : EmitTo W α) (m' : Emit α) : Prop where
  ok : ∀ {ctx w a t}, m ⟨ctx, w⟩ = .ok a t → ∃ bytes, Took w bytes t.sink ∧
    ∀ sink : Sink, sink.Takes bytes → m' ⟨ctx, sink⟩ = .ok a ⟨t.context, sink.offer bytes⟩
  error : ∀ {ctx w e t}, m ⟨ctx, w⟩ = .error e t → ∃ bytes, Took w bytes t.sink ∧
    ∀ sink : Sink, sink.Takes bytes → (e = .sinkFull → (sink.offer bytes).IsFull) →
      m' ⟨ctx, sink⟩ = .error e ⟨t.context, sink.offer bytes⟩

namespace Mirrors

variable {Took : W → List UInt8 → W → Prop}

/-- Steps that look at the cursor first. -/
theorem of_cursor {m : EmitTo W α} {m' : Emit α} {f : Word → EmitTo W α} {g : Word → Emit α}
    (hm : ∀ s, m s = f s.context.address s) (hm' : ∀ s, m' s = g s.context.address s)
    (h : ∀ address, Mirrors Took (f address) (g address)) : Mirrors Took m m' where
  ok {ctx w a t} hrun := by
    obtain ⟨bytes, htook, hsink⟩ := (h ctx.address).ok ((hm _).symm.trans hrun)
    exact ⟨bytes, htook, fun sink htakes => (hm' _).trans (hsink sink htakes)⟩
  error {ctx w e t} hrun := by
    obtain ⟨bytes, htook, hsink⟩ := (h ctx.address).error ((hm _).symm.trans hrun)
    exact ⟨bytes, htook, fun sink htakes hfull => (hm' _).trans (hsink sink htakes hfull)⟩

section Lawful

variable [Writer W] (hw : LawfulWriter W Took)
include hw

/-- Steps that write nothing, and do the same to the context. -/
theorem silent {m : EmitTo W α} {m' : Emit α}
    (h : ∀ ctx, ∃ result, (∀ w, m ⟨ctx, w⟩ = withSink w result) ∧
      ∀ sink, m' ⟨ctx, sink⟩ = withSink sink result) : Mirrors Took m m' where
  ok {ctx w a t} hm := by
    obtain ⟨result, hwriter, hsink⟩ := h ctx
    rw [hwriter] at hm
    cases result with
    | error e after => cases hm
    | ok b after =>
      cases hm
      refine ⟨[], hw.nil w, fun sink _ => ?_⟩
      rw [hsink, Sink.offer_nil]
      rfl
  error {ctx w e t} hm := by
    obtain ⟨result, hwriter, hsink⟩ := h ctx
    rw [hwriter] at hm
    cases result with
    | ok b after => cases hm
    | error e after =>
      cases hm
      refine ⟨[], hw.nil w, fun sink _ _ => ?_⟩
      rw [hsink, Sink.offer_nil]
      rfl

theorem pure (a : α) : Mirrors Took (Pure.pure a) (Pure.pure a) :=
  silent hw fun ctx => ⟨.ok a ctx, fun _ => rfl, fun _ => rfl⟩

theorem throw (e : AssemblyError) : Mirrors Took (throw e : EmitTo W α) (throw e) :=
  silent hw fun ctx => ⟨.error e ctx, fun _ => rfl, fun _ => rfl⟩

theorem modifyContext (g : Context → Context) :
    Mirrors Took (modify fun s => { s with context := g s.context })
      (modify fun s => { s with context := g s.context }) :=
  silent hw fun ctx => ⟨.ok ⟨⟩ (g ctx), fun _ => rfl, fun _ => rfl⟩

theorem onContext (step : EStateM AssemblyError Context α) :
    Mirrors Took (onContext step) (onContext step) := by
  refine silent hw fun ctx => ⟨step ctx, fun w => ?_, fun sink => ?_⟩
  · unfold Emit.onContext
    cases step ctx <;> rfl
  · unfold Emit.onContext
    cases step ctx <;> rfl

/-- What is not meant for the writer does not reach it. -/
theorem discarding (m : Emit α) : Mirrors Took (discarding m) (discarding m) := by
  refine silent hw fun ctx => ?_
  cases hrun : m ⟨ctx, .discard⟩ with
  | ok a t =>
    refine ⟨.ok a t.context, fun w => ?_, fun sink => ?_⟩
    · simp only [Emit.discarding, hrun, withSink]
    · simp only [Emit.discarding, hrun, withSink]
  | error e t =>
    refine ⟨.error e t.context, fun w => ?_, fun sink => ?_⟩
    · simp only [Emit.discarding, hrun, withSink]
    · simp only [Emit.discarding, hrun, withSink]

/-- A test of the cursor. -/
theorem check (stop : Word) (e : AssemblyError) (a : α) :
    Mirrors Took (do
        if (← get).context.address ≠ stop then MonadExcept.throw e
        return a)
      (do
        if (← get).context.address ≠ stop then MonadExcept.throw e
        return a) := by
  have hrun (V : Type) (s : EmissionTo V) : (do
        if (← get).context.address ≠ stop then MonadExcept.throw e
        return a : EmitTo V α) s =
      withSink s.sink
        (if s.context.address ≠ stop then .error e s.context else .ok a s.context) := by
    show (if s.context.address ≠ stop then MonadExcept.throw e >>= fun _ => Pure.pure a
      else Pure.pure a : EmitTo V α) s = _
    split <;> rfl
  refine silent hw fun ctx => ⟨if ctx.address ≠ stop then .error e ctx else .ok a ctx, ?_, ?_⟩
  · exact fun w => hrun W ⟨ctx, w⟩
  · exact fun sink => hrun Sink ⟨ctx, sink⟩

/-- A run that the writer takes is taken by the sink, and one that it refuses fills the sink. -/
theorem put (run : Run) : Mirrors Took (put run) (put run) where
  ok {ctx w a t} hm := by
    rw [putTo_apply] at hm
    split at hm
    next hfits =>
      cases hm
      refine ⟨run.toList, hw.written (Prod.ext rfl hfits), fun sink htakes => ?_⟩
      rw [put_apply, Sink.write_of_takes htakes]
      rfl
    · cases hm
  error {ctx w e t} hm := by
    rw [putTo_apply] at hm
    split at hm
    · cases hm
    next hfits =>
      cases hm
      obtain ⟨n, hn, htook⟩ := hw.refused (Prod.ext rfl (Bool.eq_false_iff.2 hfits))
      refine ⟨run.toList.take n, htook, fun sink htakes hfull => ?_⟩
      rw [put_apply, Sink.write_of_isFull hn htakes (hfull rfl)]
      rfl

/-- The second step finds the writer and the sink as the first left them. -/
theorem bind {m : EmitTo W α} {m' : Emit α} {f : α → EmitTo W β} {f' : α → Emit β}
    (hm : Mirrors Took m m') (hf : ∀ a, Mirrors Took (f a) (f' a)) :
    Mirrors Took (m >>= f) (m' >>= f') where
  ok {ctx w b t} h := by
    obtain ⟨a, u, hfirst, hrest⟩ := bind_eq_ok.1 h
    obtain ⟨first, htook, hfirst⟩ := hm.ok hfirst
    obtain ⟨rest, htook', hrest⟩ := (hf a).ok hrest
    refine ⟨first ++ rest, hw.append htook htook', fun sink htakes => ?_⟩
    obtain ⟨htakes, htakes'⟩ := (sink.takes_append first rest).1 htakes
    rw [bind_apply, hfirst sink htakes, ← Sink.offer_append htakes]
    exact hrest _ htakes'
  error {ctx w e t} h := by
    rcases bind_eq_error.1 h with h | ⟨a, u, hfirst, hrest⟩
    · obtain ⟨bytes, htook, h⟩ := hm.error h
      exact ⟨bytes, htook, fun sink htakes hfull => bind_eq_error.2 (.inl (h sink htakes hfull))⟩
    · obtain ⟨first, htook, hfirst⟩ := hm.ok hfirst
      obtain ⟨rest, htook', hrest⟩ := (hf a).error hrest
      refine ⟨first ++ rest, hw.append htook htook', fun sink htakes hfull => ?_⟩
      obtain ⟨htakes, htakes'⟩ := (sink.takes_append first rest).1 htakes
      rw [← Sink.offer_append htakes] at hfull ⊢
      rw [bind_apply, hfirst sink htakes]
      exact hrest _ htakes' hfull

/-! ### The steps of the second pass -/

theorem fieldWrite (f : Field) (address stop : Word) (wrap : EvalError → AssemblyError) :
    Mirrors Took (f.write address stop wrap) (f.write address stop wrap) := by
  refine bind hw (onContext hw _) fun value => ?_
  split
  · exact put hw _
  · exact throw hw _

theorem writeFields (e : Encoded) (start stop : Word) (fields : List Field) (written : Nat) :
    Mirrors Took (e.writeFields start stop written fields)
      (e.writeFields start stop written fields) := by
  induction fields generalizing written with
  | nil => exact pure hw written
  | cons f fields ih => exact bind hw (fieldWrite hw f _ stop _) fun count => ih (written + count)

theorem itemWrite (item : Item) (start stop : Word) :
    Mirrors Took (item.write start stop) (item.write start stop) := by
  cases item with
  | raw run => exact put hw run
  | reserve count => exact put hw _
  | data field => exact fieldWrite hw field start stop _
  | instruction encoded =>
    exact bind hw (put hw _) fun count => writeFields hw encoded start stop encoded.fields count

theorem itemEmit (item : Item) : Mirrors Took item.emit item.emit := by
  refine of_cursor (f := item.emitAt) (g := item.emitAt) (fun _ => rfl) (fun _ => rfl)
    fun start => ?_
  refine bind hw (itemWrite hw item start _) fun written => ?_
  have hmove := bind hw
    (modifyContext hw fun ctx => { ctx with address := start + .ofNat item.length })
    fun _ => pure hw written
  split
  · exact bind hw (throw hw _) fun _ => hmove
  · exact hmove

theorem emitAll (items : List Item) : Mirrors Took (Item.emitAll items) (Item.emitAll items) := by
  unfold Item.emitAll
  generalize 0 = count
  induction items generalizing count with
  | nil => exact pure hw count
  | cons item items ih =>
    rw [List.foldlM_cons, List.foldlM_cons]
    refine bind hw (bind hw (itemEmit hw item) fun n => pure hw (count + n)) fun sum => ih sum

theorem emitGap (cursor : Option Word) (start : Word) :
    Mirrors Took (Section.emitGap cursor start) (Section.emitGap cursor start) := by
  unfold Section.emitGap
  cases cursor with
  | none => exact pure hw 0
  | some stop =>
    dsimp only
    split
    · exact pure hw 0
    · exact put hw _

theorem sectionEmit (s : Section) (id : SectionId) (p : PlacedSection) (cursor : Option Word) :
    Mirrors Took (s.emit id p cursor) (s.emit id p cursor) := by
  refine bind hw (modifyContext hw fun ctx => ctx.enterSection id p.start) fun _ => ?_
  by_cases hs : s.kind = .bss
  · simp only [hs, ↓reduceIte]
    refine bind hw (pure hw 0) fun gap => ?_
    exact bind hw (discarding hw (Item.emitAll p.items)) fun count => check hw p.stop _ 0
  · simp only [hs, ↓reduceIte]
    refine bind hw (emitGap hw cursor p.start) fun gap => ?_
    exact bind hw (emitAll hw p.items) fun count => check hw p.stop _ (gap + count)

theorem emitSections (l : List (Section × PlacedSection)) (id : SectionId) (cursor : Option Word)
    (written : Nat) :
    Mirrors Took (ObjectFile.emitSections id cursor written l)
      (ObjectFile.emitSections id cursor written l) := by
  induction l generalizing id cursor written with
  | nil => exact pure hw written
  | cons sp l ih => exact bind hw (sectionEmit hw sp.1 id sp.2 cursor) fun count => ih _ _ _

end Lawful

end Mirrors

end Emit

/-! ## The second pass -/

namespace ObjectFile

variable {W : Type} [Writer W] {Took : W → List UInt8 → W → Prop}

/-- The second pass to a lawful writer comes to what it comes to with a sink that has room for the
bytes that the writer took; and for no more than these, if the writer refused one. -/
theorem exists_emit_eq (hw : LawfulWriter W Took) (obj : ObjectFile) (w : W) :
    ∃ bytes, Took w bytes (obj.emitTo w).2.2 ∧ ∀ sink : Sink, sink.Takes bytes →
      ((obj.emitTo w).1 = .error .sinkFull → (sink.offer bytes).IsFull) →
      obj.emit sink = ((obj.emitTo w).1, (obj.emitTo w).2.1, sink.offer bytes) := by
  by_cases hstage : obj.stage = .constructed
  · have hrun := Emit.Mirrors.emitSections hw (obj.sections.zip obj.placed) 0 none 0
    rw [emitTo_eq hstage]
    cases hresult : emitSections 0 none 0 (obj.sections.zip obj.placed) ⟨obj.context.reset, w⟩ with
    | error e t =>
      obtain ⟨bytes, htook, hsink⟩ := hrun.error hresult
      refine ⟨bytes, htook, fun sink htakes hfull => ?_⟩
      have hrefused : e = .sinkFull → (sink.offer bytes).IsFull := fun he => hfull (by rw [he])
      rw [emit_eq hstage, hsink sink htakes hrefused]
    | ok written t =>
      obtain ⟨bytes, htook, hsink⟩ := hrun.ok hresult
      dsimp only
      cases hcheck : obj.container.check t.context.symbols obj.sections with
      | error e =>
        refine ⟨bytes, htook, fun sink htakes _ => ?_⟩
        rw [emit_eq hstage, hsink sink htakes]
        simp only [hcheck]
      | ok u =>
        refine ⟨bytes, htook, fun sink htakes _ => ?_⟩
        rw [emit_eq hstage, hsink sink htakes]
        simp only [hcheck]
  · rw [emitTo_of_ne_constructed hstage]
    refine ⟨[], hw.nil w, fun sink _ _ => ?_⟩
    rw [emit_of_ne_constructed hstage, Sink.offer_nil]

/-- The second pass to any lawful writer. It answers, and leaves the object file, as it does with an
empty buffer that has room for the bytes that the writer took, and keeps these. Unless the answer is
that the writer refused a run, that is the answer without a limit. -/
theorem emitTo_eq_emit (hw : LawfulWriter W Took) (obj : ObjectFile) (w : W) :
    ∃ bytes, Took w bytes (obj.emitTo w).2.2 ∧
      obj.emit (.new (some bytes.length)) = ((obj.emitTo w).1, (obj.emitTo w).2.1,
        .buffer (some bytes.length) bytes.toArray) ∧
      ((obj.emitTo w).1 ≠ .error .sinkFull →
        obj.emit (.new none) = ((obj.emitTo w).1, (obj.emitTo w).2.1,
          .buffer none bytes.toArray)) := by
  obtain ⟨bytes, htook, hsink⟩ := exists_emit_eq hw obj w
  refine ⟨bytes, htook, ?_, fun hanswer => ?_⟩
  · have htakes : (Sink.new (some bytes.length)).Takes bytes := Nat.le_refl _
    have hoffer : (Sink.new (some bytes.length)).offer bytes =
        .buffer (some bytes.length) bytes.toArray := by simp [Sink.new, Sink.offer]
    rw [← hoffer]
    refine hsink _ htakes fun _ more hmore => ?_
    rw [hoffer] at hmore
    have hroom : more.length ≤ bytes.length - bytes.toArray.size := hmore
    rw [List.size_toArray, Nat.sub_self] at hroom
    exact List.eq_nil_of_length_eq_zero (Nat.le_zero.1 hroom)
  · have hoffer : (Sink.new none).offer bytes = .buffer none bytes.toArray := by
      simp [Sink.new, Sink.offer, Sink.push]
    rw [← hoffer]
    exact hsink _ trivial fun hrefused => absurd hrefused hanswer

/-! ## Calls with any writers -/

/-- Something that an object file is told to do, with a lawful writer if it is to write. -/
inductive WriterCall : Type 1
  | addSection (s : Section)
  | construct
  | emit {W : Type} [Writer W] {Took : W → List UInt8 → W → Prop} (hw : LawfulWriter W Took) (w : W)

/-- The section that a call adds. -/
def WriterCall.section? : WriterCall → Option Section
  | .addSection s => some s
  | _ => none

/-- The object file after a call. -/
def writerStep (obj : ObjectFile) : WriterCall → ObjectFile
  | .addSection s => obj.addSection s
  | .construct => obj.construct.2
  | @WriterCall.emit _ _ _ _ w => (obj.emitTo w).2.1

/-- Calls with lawful writers make of an object file what some calls with buffers make of it, which
add the same sections. So what holds after all calls with buffers holds after these. -/
theorem exists_afterCalls (obj : ObjectFile) (calls : List WriterCall) :
    ∃ buffered : List Call, calls.foldl writerStep obj = obj.afterCalls buffered ∧
      buffered.map Call.section? = calls.map WriterCall.section? := by
  induction calls generalizing obj with
  | nil => exact ⟨[], rfl, rfl⟩
  | cons call calls ih =>
    obtain ⟨one, hstep, hsection⟩ :
        ∃ one : Call, obj.writerStep call = obj.step one ∧ one.section? = call.section? := by
      cases call with
      | addSection s => exact ⟨.addSection s, rfl, rfl⟩
      | construct => exact ⟨.construct, rfl, rfl⟩
      | emit hw w =>
        obtain ⟨bytes, -, hemit, -⟩ := emitTo_eq_emit hw obj w
        refine ⟨.emit (.new (some bytes.length)), ?_, rfl⟩
        rw [step, hemit]
        rfl
    obtain ⟨buffered, hrest, hsections⟩ := ih (obj.step one)
    refine ⟨one :: buffered, ?_, ?_⟩
    · rw [List.foldl_cons, hstep, hrest]
      rfl
    · rw [List.map_cons, List.map_cons, hsection, hsections]

end ObjectFile

end Assembler
