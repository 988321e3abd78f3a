import Assembler.Proofs.Retry

/-!
# Output that does not fit

A step of the second pass hands the same bytes to every sink, in the same order, whichever writes it
splits them into. A sink that has room for all of them makes no difference to the step. One that has
not keeps as many as fit, and stops the step there: no other error can come first, since what came
before was taken. That is `Emit.Streams`. It composes, because a sink that is offered bytes in two
parts ends as if it had been offered both at once (`Sink.takes_append`, `Sink.offer_append`).

Main statement: `ObjectFile.emit_truncated`.
-/

namespace Assembler

/-! ## Sinks with and without room -/

namespace Sink

/-- The sink has room for the bytes. -/
def Takes : Sink → List UInt8 → Prop
  | .buffer (some limit) kept, bytes => bytes.length ≤ limit - kept.size
  | _, _ => True

/-- The sink after bytes were offered to it. It keeps as many as it has room for. -/
def offer : Sink → List UInt8 → Sink
  | .buffer (some limit) kept, bytes =>
    .buffer (some limit) (kept ++ bytes.take (limit - kept.size))
  | sink, bytes => sink.push bytes

theorem takes_nil (sink : Sink) : sink.Takes [] := by
  unfold Takes
  split
  · exact Nat.zero_le _
  · trivial

@[simp]
theorem offer_nil (sink : Sink) : sink.offer [] = sink := by
  unfold offer
  split <;> simp

/-- A write offers the bytes of the run, and tells whether there was room. -/
theorem write_of_takes {sink : Sink} {run : Run} (h : sink.Takes run.toList) :
    sink.write run = (sink.offer run.toList, true) := by
  match sink with
  | .discard => rfl
  | .buffer none kept => rfl
  | .buffer (some limit) kept =>
    have hroom : run.length ≤ limit - kept.size := by
      rw [← run.length_toList]
      exact h
    rw [write, if_pos hroom, offer, List.take_of_length_le h]

theorem write_of_not_takes {sink : Sink} {run : Run} (h : ¬ sink.Takes run.toList) :
    sink.write run = (sink.offer run.toList, false) := by
  match sink with
  | .discard => exact absurd trivial h
  | .buffer none kept => exact absurd trivial h
  | .buffer (some limit) kept =>
    have hroom : ¬ run.length ≤ limit - kept.size := by
      rw [← run.length_toList]
      exact h
    rw [write, if_neg hroom, Run.toList_take, offer]

/-- There is room for both parts, if there is for the first and then for the second. -/
theorem takes_append (sink : Sink) (a b : List UInt8) :
    sink.Takes (a ++ b) ↔ sink.Takes a ∧ (sink.offer a).Takes b := by
  match sink with
  | .discard => exact ⟨fun _ => ⟨trivial, trivial⟩, fun _ => trivial⟩
  | .buffer none kept => exact ⟨fun _ => ⟨trivial, trivial⟩, fun _ => trivial⟩
  | .buffer (some limit) kept =>
    have hsize : (kept ++ a.take (limit - kept.size)).size =
        kept.size + min (limit - kept.size) a.length := by
      simp [← Array.length_toList]
    show (a ++ b).length ≤ limit - kept.size ↔ a.length ≤ limit - kept.size ∧
      b.length ≤ limit - (kept ++ a.take (limit - kept.size)).size
    rw [hsize, List.length_append]
    omega

theorem offer_append {sink : Sink} {a : List UInt8} (h : sink.Takes a) (b : List UInt8) :
    (sink.offer a).offer b = sink.offer (a ++ b) := by
  match sink with
  | .discard => rfl
  | .buffer none kept => exact push_push (.buffer none kept) a b
  | .buffer (some limit) kept =>
    have hfirst : a.take (limit - kept.size) = a := List.take_of_length_le h
    have hroom : limit - (kept ++ a).size = limit - kept.size - a.length := by
      have hsize : (kept ++ a).size = kept.size + a.length := by simp [← Array.length_toList]
      omega
    simp only [offer, hfirst, hroom, appendList_appendList, List.take_append]

/-- A sink that is full keeps nothing of what comes later. -/
theorem offer_append_of_not_takes {sink : Sink} {a : List UInt8} (h : ¬ sink.Takes a)
    (b : List UInt8) : sink.offer (a ++ b) = sink.offer a := by
  match sink with
  | .discard => exact absurd trivial h
  | .buffer none kept => exact absurd trivial h
  | .buffer (some limit) kept =>
    have hshort : ¬ a.length ≤ limit - kept.size := h
    rw [offer, offer, List.take_append_of_le_length (by omega)]

end Sink

/-! ## Steps and their sinks -/

namespace Emit

variable {α β : Type}

/-- A result, with the writer that it left. -/
def withSink {W : Type} (sink : W) :
    EStateM.Result AssemblyError Context α → EStateM.Result AssemblyError (EmissionTo W) α
  | .ok a ctx => .ok a ⟨ctx, sink⟩
  | .error e ctx => .error e ⟨ctx, sink⟩

/-- In the context `ctx`, a step hands over `bytes` and comes to `result` with every sink that has
room for them. A sink without that room ends the step when it is full. -/
structure StreamsFrom (m : Emit α) (ctx : Context) (bytes : List UInt8)
    (result : EStateM.Result AssemblyError Context α) : Prop where
  takes : ∀ sink : Sink, sink.Takes bytes → m ⟨ctx, sink⟩ = withSink (sink.offer bytes) result
  full : ∀ sink : Sink, ¬ sink.Takes bytes →
    ∃ after, m ⟨ctx, sink⟩ = .error .sinkFull ⟨after, sink.offer bytes⟩

/-- What a step hands over depends on the context only. -/
def Streams (m : Emit α) : Prop := ∀ ctx, ∃ bytes result, m.StreamsFrom ctx bytes result

/-- A step that writes nothing does not look at the sink. -/
theorem StreamsFrom.silent {m : Emit α} {ctx : Context}
    {result : EStateM.Result AssemblyError Context α}
    (h : ∀ sink, m ⟨ctx, sink⟩ = withSink sink result) : m.StreamsFrom ctx [] result := by
  constructor
  · intro sink _
    rw [h, Sink.offer_nil]
  · intro sink hfull
    exact absurd sink.takes_nil hfull

/-- A step that does the same as another, from another context on. -/
theorem StreamsFrom.congr {m m' : Emit α} {ctx ctx' : Context} {bytes : List UInt8}
    {result : EStateM.Result AssemblyError Context α} (h : m'.StreamsFrom ctx' bytes result)
    (hsame : ∀ sink, m ⟨ctx, sink⟩ = m' ⟨ctx', sink⟩) : m.StreamsFrom ctx bytes result := by
  constructor
  · intro sink htakes
    rw [hsame]
    exact h.takes sink htakes
  · intro sink hfull
    rw [hsame]
    exact h.full sink hfull

theorem streamsFrom_put (run : Run) (ctx : Context) :
    StreamsFrom (put run) ctx run.toList (.ok run.length ctx) := by
  constructor
  · intro sink htakes
    rw [put_apply, Sink.write_of_takes htakes]
    rfl
  · intro sink hfull
    refine ⟨ctx, ?_⟩
    rw [put_apply, Sink.write_of_not_takes hfull]
    rfl

/-- What a field hands over depends on the context only. -/
theorem streams_write (f : Field) (address stop : Word) (wrap : EvalError → AssemblyError) :
    Streams (f.write address stop wrap) := by
  intro ctx
  cases hsettle : f.settle address stop ctx with
  | error e after =>
    refine ⟨[], .error (wrap e) ctx, .silent fun sink => ?_⟩
    rw [Field.write_apply, hsettle]
    rfl
  | ok value after =>
    by_cases hfits : f.accepts value
    · -- the field is settled alike, and its bytes go to the sink in one write
      have hput := streamsFrom_put (.literal (value.leBytes f.size)) after
      refine ⟨_, _, hput.congr fun sink => ?_⟩
      rw [Field.write_apply, hsettle]
      exact if_pos hfits
    · refine ⟨[], .error (.encoding f.expr.text (.outOfRange value f.size)) after,
        .silent fun sink => ?_⟩
      rw [Field.write_apply, hsettle]
      exact if_neg hfits

/-- A step that fails is the last: the steps behind it hand over nothing. -/
theorem StreamsFrom.bind_error {m : Emit α} {f : α → Emit β} {ctx after : Context}
    {bytes : List UInt8} {e : AssemblyError} (hm : m.StreamsFrom ctx bytes (.error e after)) :
    (m >>= f).StreamsFrom ctx bytes (.error e after) := by
  constructor
  · intro sink htakes
    exact bind_eq_error.2 (.inl (hm.takes sink htakes))
  · intro sink hfull
    obtain ⟨last, hlast⟩ := hm.full sink hfull
    exact ⟨last, bind_eq_error.2 (.inl hlast)⟩

/-- Two steps hand over the bytes of both. A sink without room for all of them is full in the first
or in the second. -/
theorem StreamsFrom.bind_ok {m : Emit α} {f : α → Emit β} {ctx mid : Context} {a : α}
    {first rest : List UInt8} {result : EStateM.Result AssemblyError Context β}
    (hm : m.StreamsFrom ctx first (.ok a mid)) (hf : (f a).StreamsFrom mid rest result) :
    (m >>= f).StreamsFrom ctx (first ++ rest) result := by
  constructor
  · intro sink htakes
    obtain ⟨hfirst, hrest⟩ := (sink.takes_append first rest).1 htakes
    rw [bind_apply, hm.takes sink hfirst, ← Sink.offer_append hfirst]
    exact hf.takes _ hrest
  · intro sink hfull
    by_cases hfirst : sink.Takes first
    · have hrest : ¬ (sink.offer first).Takes rest :=
        fun hrest => hfull ((sink.takes_append first rest).2 ⟨hfirst, hrest⟩)
      rw [bind_apply, hm.takes sink hfirst, ← Sink.offer_append hfirst]
      exact hf.full _ hrest
    · obtain ⟨last, hlast⟩ := hm.full sink hfirst
      refine ⟨last, ?_⟩
      rw [bind_apply, hlast, Sink.offer_append_of_not_takes hfirst]

/-- What the steps of the second pass hand over depends on the context only. -/
theorem closed_streams (N : Nat) : Closed N (fun _ => True) Streams where
  pure a ctx := ⟨[], .ok a ctx, .silent fun _ => rfl⟩
  throw e ctx := ⟨[], .error e ctx, .silent fun _ => rfl⟩
  bind {α β m f} hm hf := by
    intro ctx
    obtain ⟨first, result, hfirst⟩ := hm ctx
    cases result with
    | error e after => exact ⟨first, .error e after, hfirst.bind_error⟩
    | ok a mid =>
      obtain ⟨rest, result, hrest⟩ := hf a mid
      exact ⟨first ++ rest, result, hfirst.bind_ok hrest⟩
  cursor {α m f} hsame hf := by
    intro ctx
    obtain ⟨bytes, result, h⟩ := hf ctx.address ctx
    exact ⟨bytes, result, h.congr fun sink => hsame ⟨ctx, sink⟩⟩
  put run ctx := ⟨_, _, streamsFrom_put run ctx⟩
  write f address stop wrap _ := streams_write f address stop wrap
  move address ctx := ⟨[], .ok ⟨⟩ { ctx with address := address }, .silent fun _ => rfl⟩
  enter id _ start ctx := ⟨[], .ok ⟨⟩ (ctx.enterSection id start), .silent fun _ => rfl⟩
  discarding {α m} hm := by
    -- the sink that keeps nothing has room for everything, and the sink itself is put aside
    intro ctx
    obtain ⟨bytes, result, h⟩ := hm ctx
    refine ⟨[], result, .silent fun sink => ?_⟩
    unfold Emit.discarding
    rw [h.takes .discard trivial]
    cases result <;> rfl

end Emit

/-! ## The second pass -/

namespace ObjectFile

/-- What the second pass comes to does not depend on the sink, which is only handed on. -/
theorem finish_withSink (obj : ObjectFile) (result : EStateM.Result AssemblyError Context Nat)
    (v w : Sink) :
    obj.finish (Emit.withSink v result) =
      ((obj.finish (Emit.withSink w result)).1, (obj.finish (Emit.withSink w result)).2.1, v) := by
  cases result with
  | error e ctx => rfl
  | ok n ctx =>
    simp only [finish, Emit.withSink]
    split <;> rfl

/-- The second pass, into a sink without a limit and into one with a limit that may have taken bytes
before. The second sink ends up with the bytes of the first, as many as it had room for. If it had
room for all of them, then the answer and the object file are the same, also if the pass fails for
another reason. Otherwise the answer is that the sink is full, and nothing but the context of the
object file changes: its stage is still that of a second pass to come. -/
theorem emit_truncated {obj : ObjectFile} (h : obj.stage = .constructed) (limit : Nat)
    (kept : Array UInt8) :
    let whole := obj.emit (.new none)
    let cut := obj.emit (.buffer (some limit) kept)
    let image := whole.2.2.kept.toList
    let room := limit - kept.size
    cut.2.2 = .buffer (some limit) (kept ++ image.take room) ∧
    (image.length ≤ room → cut.1 = whole.1 ∧ cut.2.1 = whole.2.1) ∧
    (room < image.length →
      cut.1 = .error .sinkFull ∧ cut.2.1.stage = .constructed ∧
        cut.2.1 = { obj with context := cut.2.1.context }) := by
  intro whole cut image room
  obtain ⟨bytes, result, hstreams⟩ := of_closed obj
    (Emit.closed_streams _) (fun _ _ _ _ _ _ => trivial) obj.context.reset
  have hwhole : whole = obj.finish (Emit.withSink (Sink.offer (.new none) bytes) result) := by
    rw [← hstreams.takes (.new none) trivial]
    exact emit_eq_finish h _
  have himage : image = bytes := by
    show whole.2.2.kept.toList = bytes
    rw [hwhole, obj.finish_withSink result _ .discard]
    simp [Sink.new, Sink.offer, Sink.push, Sink.kept]
  have hcut : cut = obj.finish (obj.run ⟨obj.context.reset, .buffer (some limit) kept⟩) :=
    emit_eq_finish h _
  rw [himage]
  by_cases hroom : bytes.length ≤ room
  · rw [hstreams.takes (.buffer (some limit) kept) hroom,
      obj.finish_withSink result _ (Sink.offer (.new none) bytes), ← hwhole] at hcut
    rw [hcut]
    exact ⟨rfl, fun _ => ⟨rfl, rfl⟩, fun hlt => absurd hroom (Nat.not_le_of_lt hlt)⟩
  · obtain ⟨after, hfull⟩ := hstreams.full (.buffer (some limit) kept) hroom
    rw [hfull] at hcut
    rw [hcut]
    exact ⟨rfl, fun hle => absurd hle hroom, fun _ => ⟨rfl, h, rfl⟩⟩

/-- Two bytes, and an address that does not fit into the third. -/
def lateFailure : ObjectFile :=
  (ObjectFile.new .bit32 .flat).addSection
    { Section.new "data" .data with address := some 0x1234, contents :=
        [.label "here" .internal, .data (.bytes [1, 2]),
          .data (.values .bit8 [.reference "here"])] }

/-- With room for the two bytes the address fails, and with room for one the sink does. -/
theorem emit_truncated_lateFailure :
    ∃ built, lateFailure.construct = (.ok (), built) ∧ built.stage = .constructed ∧
      (built.emit (.new none)).2.2 = .buffer none #[1, 2] ∧
      (built.emit (.new (some 2))).1 =
        .error (.encoding "here" (.outOfRange 0x1234 .bit8)) ∧
      (built.emit (.new (some 2))).2.2 = .buffer (some 2) #[1, 2] ∧
      (built.emit (.new (some 1))).1 = .error .sinkFull ∧
      (built.emit (.new (some 1))).2.2 = .buffer (some 1) #[1] := by
  have hbuilt : lateFailure.construct = (.ok (), lateFailure.construct.2) :=
    Prod.ext (eq_ok_of_toOption (by decide +kernel)) rfl
  have hstage : lateFailure.construct.2.stage = .constructed := (construct_ok hbuilt).2.2.1
  have hwhole : (lateFailure.construct.2.emit (.new none)).2.2 = .buffer none #[1, 2] := by
    decide +kernel
  obtain ⟨htwo, hsame, -⟩ := emit_truncated hstage 2 #[]
  obtain ⟨hone, -, hfull⟩ := emit_truncated hstage 1 #[]
  rw [hwhole] at htwo hsame hone hfull
  refine ⟨_, hbuilt, hstage, hwhole, ?_, htwo, (hfull (by decide)).1, hone⟩
  exact (hsame (by decide)).1.trans rfl

end ObjectFile

end Assembler
