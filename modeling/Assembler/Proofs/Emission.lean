import Assembler.Item.Emit
import Assembler.Proofs.Passes

/-!
# What the second pass hands to its sink

A step that succeeds hands its bytes to the sink in order and does not look at what the sink keeps,
so that it does the same to the tables, with the same bytes, for a sink that takes everything. That
is `Emit.Writes`; it holds of fields, of items and of runs of items.

* `Item.emit_writes`: an item that is written hands over as many bytes as its length says, and moves
  the cursor by as many.
* `Item.emit_isOfWriting`: an item that fails does so in a field or at the sink. The check of its
  length never fails.
* `Item.emitFrom_writes`, `Item.emitFrom_isOfWriting`: the same for items one after the other.
-/

namespace Assembler

/-! ## Sinks -/

theorem appendList_appendList {α : Type} (kept : Array α) (a b : List α) :
    kept ++ a ++ b = kept ++ (a ++ b) := by
  apply Array.toList_inj.1
  simp

namespace Sink

/-- The sink after it took bytes. -/
def push : Sink → List UInt8 → Sink
  | .discard, _ => .discard
  | .buffer limit kept, bytes => .buffer limit (kept ++ bytes)

@[simp]
theorem push_nil (sink : Sink) : sink.push [] = sink := by
  cases sink <;> simp [push]

@[simp]
theorem push_push (sink : Sink) (a b : List UInt8) :
    (sink.push a).push b = sink.push (a ++ b) := by
  cases sink with
  | discard => rfl
  | buffer limit kept => simp only [push, appendList_appendList]

/-- A sink that takes a whole run has its bytes after those it had. -/
theorem eq_push_of_write {sink after : Sink} {run : Run} (h : sink.write run = (after, true)) :
    after = sink.push run.toList := by
  unfold write at h
  split at h
  · cases h
    rfl
  · cases h
    rfl
  · simp only at h
    split at h
    · cases h
      rfl
    · cases h

end Sink

namespace Emit

/-- A step that goes from `s` to `t` with result `a` and hands `bytes` to the sink. It would do so
with a sink that takes everything, whatever that had kept before. -/
structure Writes {α : Type} (m : Emit α) (s : Emission) (a : α) (t : Emission)
    (bytes : List UInt8) : Prop where
  sink : t.sink = s.sink.push bytes
  replay : ∀ kept, m ⟨s.context, .buffer none kept⟩ =
    .ok a ⟨t.context, .buffer none (kept ++ bytes)⟩

theorem Writes.pure {α : Type} (a : α) (s : Emission) : Writes (Pure.pure a) s a s [] := by
  refine ⟨by simp, ?_⟩
  intro kept
  simp

theorem Writes.bind {α β : Type} {m : Emit α} {f : α → Emit β} {s u t : Emission} {a : α} {b : β}
    {first rest : List UInt8} (hm : Writes m s a u first) (hf : Writes (f a) u b t rest) :
    Writes (m >>= f) s b t (first ++ rest) := by
  constructor
  · rw [hf.sink, hm.sink, Sink.push_push]
  · intro kept
    rw [bind_eq_ok]
    refine ⟨a, _, hm.replay kept, ?_⟩
    rw [hf.replay, appendList_appendList]

/-- The bytes that a step hands to a sink that takes everything. -/
def output {α : Type} (m : Emit α) (ctx : Context) : List UInt8 :=
  match m ⟨ctx, .new none⟩ with
  | .ok _ t => t.sink.kept.toList
  | .error _ t => t.sink.kept.toList

theorem Writes.output {α : Type} {m : Emit α} {s t : Emission} {a : α} {bytes : List UInt8}
    (h : Writes m s a t bytes) : Emit.output m s.context = bytes := by
  have hrun := h.replay #[]
  unfold Emit.output
  rw [Sink.new, hrun]
  simp [Sink.kept]

theorem Writes.unique {α : Type} {m : Emit α} {s t : Emission} {a : α} {x y : List UInt8}
    (hx : Writes m s a t x) (hy : Writes m s a t y) : x = y := by
  rw [← hx.output, ← hy.output]

/-- A run goes to the writer, and the step fails when the writer does not take all of it. -/
theorem putTo_apply {W : Type} [Writer W] (run : Run) (s : EmissionTo W) :
    put run s =
      if (Writer.write s.sink run).2 then
        .ok run.length { s with sink := (Writer.write s.sink run).1 }
      else .error .sinkFull { s with sink := (Writer.write s.sink run).1 } := by
  -- what is left of the steps when the state is known is the test
  show (if (Writer.write s.sink run).2 then Pure.pure run.length else throw .sinkFull :
    EmitTo W Nat) { s with sink := (Writer.write s.sink run).1 } = _
  split <;> rfl

theorem put_apply (run : Run) (s : Emission) :
    put run s =
      if (s.sink.write run).2 then .ok run.length { s with sink := (s.sink.write run).1 }
      else .error .sinkFull { s with sink := (s.sink.write run).1 } :=
  putTo_apply run s

/-- A run is handed over when the sink takes all of it; nothing else changes. -/
theorem put_eq_ok {run : Run} {s t : Emission} {n : Nat} :
    put run s = .ok n t ↔
      s.sink.write run = (t.sink, true) ∧ t.context = s.context ∧ n = run.length := by
  rw [put_apply]
  rcases hw : s.sink.write run with ⟨after, fits⟩
  cases fits with
  | false => simp
  | true =>
    obtain ⟨context, sink⟩ := t
    simp only [↓reduceIte, EStateM.Result.ok.injEq, EmissionTo.mk.injEq, Prod.mk.injEq, and_true]
    grind

theorem put_error {run : Run} {s t : Emission} {e : AssemblyError} (h : put run s = .error e t) :
    e = .sinkFull := by
  rw [put_apply] at h
  split at h
  · cases h
  · cases h
    rfl

theorem put_writes {run : Run} {s t : Emission} {n : Nat} (h : put run s = .ok n t) :
    Writes (put run) s n t run.toList := by
  obtain ⟨hw, hctx, rfl⟩ := put_eq_ok.1 h
  refine ⟨Sink.eq_push_of_write hw, ?_⟩
  intro kept
  rw [put_eq_ok]
  exact ⟨rfl, hctx, rfl⟩

end Emit

/-- The error of a length that was not kept. -/
def AssemblyError.IsMismatch : AssemblyError → Prop
  | .lengthMismatch _ _ _ => True
  | _ => False

/-- The errors of writing: an expression without a value, a number that does not fit its field, and
a sink that is full. -/
def AssemblyError.IsOfWriting : AssemblyError → Prop
  | .expression _ _ => True
  | .operand _ _ _ => True
  | .encoding _ _ => True
  | .sinkFull => True
  | _ => False

theorem AssemblyError.IsOfWriting.not_isMismatch {e : AssemblyError} (h : e.IsOfWriting) :
    ¬ e.IsMismatch := by
  intro hmismatch
  cases e with
  | lengthMismatch => exact h
  | _ => exact hmismatch

/-! ## Fields -/

namespace Field

/-- A field is settled first; its number then goes to the sink if it fits. -/
theorem write_apply (f : Field) (address stop : Word) (wrap : EvalError → AssemblyError)
    (s : Emission) :
    f.write address stop wrap s =
      match f.settle address stop s.context with
      | .error e _ => .error (wrap e) s
      | .ok value ctx =>
        if f.accepts value then Emit.put (.literal (value.leBytes f.size)) { s with context := ctx }
        else
          .error (.encoding f.expr.text (.outOfRange value f.size)) { s with context := ctx } := by
  rw [write, bind_apply, Emit.onContext, adaptExcept_apply]
  cases hsettle : f.settle address stop s.context with
  | error e ctx => rw [f.settle_failsCleanly address stop hsettle]
  | ok value ctx =>
    dsimp only
    by_cases hfits : f.accepts value <;> simp [hfits]

/-- A field is written when its number is settled, fits and is taken by the sink. -/
theorem write_eq_ok {f : Field} {address stop : Word} {wrap : EvalError → AssemblyError}
    {s t : Emission} {n : Nat} :
    f.write address stop wrap s = .ok n t ↔
      ∃ value, f.settle address stop s.context = .ok value t.context ∧ f.accepts value ∧
        s.sink.write (.literal (value.leBytes f.size)) = (t.sink, true) ∧ n = f.size.bytes := by
  rw [write_apply]
  cases f.settle address stop s.context with
  | error e ctx => simp
  | ok value ctx =>
    by_cases hfits : f.accepts value
    · -- the sink does not touch the context, so that settling left that of `t`
      simp only [hfits, ↓reduceIte, Emit.put_eq_ok, Run.length, Word.length_leBytes]
      grind
    · simp only [hfits]
      grind

/-- A field that is written hands over the bytes of its number. -/
theorem write_writes {f : Field} {address stop : Word} {wrap : EvalError → AssemblyError}
    {s t : Emission} {n : Nat} (h : f.write address stop wrap s = .ok n t) :
    n = f.size.bytes ∧ ∃ value, f.settle address stop s.context = .ok value t.context ∧
      Emit.Writes (f.write address stop wrap) s n t (value.leBytes f.size) := by
  obtain ⟨value, hs, hfits, hw, rfl⟩ := write_eq_ok.1 h
  refine ⟨rfl, value, hs, Sink.eq_push_of_write hw, ?_⟩
  intro kept
  exact write_eq_ok.2 ⟨value, hs, hfits, rfl, rfl⟩

/-- A field fails for a reason of writing. -/
theorem write_isOfWriting {f : Field} {address stop : Word} {wrap : EvalError → AssemblyError}
    {s t : Emission} {e : AssemblyError} (hwrap : ∀ cause, (wrap cause).IsOfWriting)
    (h : f.write address stop wrap s = .error e t) : e.IsOfWriting := by
  rw [write_apply] at h
  split at h
  · cases h
    exact hwrap _
  · split at h
    · rw [Emit.put_error h]
      trivial
    · cases h
      trivial

end Field

namespace Encoded

/-- Fields that are written hand over as many bytes as their sizes say. -/
theorem writeFields_writes {e : Encoded} {start stop : Word} {fields : List Field}
    {written n : Nat} {s t : Emission} (h : e.writeFields start stop written fields s = .ok n t) :
    n = written + fieldsLength fields ∧ ∃ bytes, bytes.length = fieldsLength fields ∧
      Emit.Writes (e.writeFields start stop written fields) s n t bytes := by
  induction fields generalizing written s with
  | nil =>
    cases h
    exact ⟨rfl, [], rfl, .pure _ _⟩
  | cons f fields ih =>
    rw [writeFields, bind_eq_ok] at h
    obtain ⟨count, u, hf, h⟩ := h
    obtain ⟨rfl, value, -, hw⟩ := Field.write_writes hf
    -- the rest counts on from here: the hypothesis is used at a later `written`
    obtain ⟨rfl, bytes, hlen, hrest⟩ := ih h
    refine ⟨by rw [fieldsLength, Nat.add_assoc], value.leBytes f.size ++ bytes, ?_, ?_⟩
    · simp [hlen, fieldsLength]
    · rw [writeFields]
      exact hw.bind hrest

theorem fieldError_isOfWriting (e : Encoded) (f : Field) (cause : EvalError) :
    (e.fieldError f cause).IsOfWriting := by
  unfold fieldError
  split <;> trivial

theorem writeFields_isOfWriting {e : Encoded} {start stop : Word} {fields : List Field}
    {written : Nat} {s t : Emission} {err : AssemblyError}
    (h : e.writeFields start stop written fields s = .error err t) : err.IsOfWriting := by
  induction fields generalizing written s with
  | nil => cases h
  | cons f fields ih =>
    rw [writeFields, bind_eq_error] at h
    rcases h with h | ⟨count, u, -, h⟩
    · exact Field.write_isOfWriting (e.fieldError_isOfWriting f) h
    · exact ih h

end Encoded

/-! ## Items -/

namespace Item

/-- An item whose bytes were handed over gave as many as its length says. -/
theorem write_writes {item : Item} {start stop : Word} {s t : Emission} {n : Nat}
    (h : item.write start stop s = .ok n t) :
    n = item.length ∧ ∃ bytes, bytes.length = item.length ∧
      Emit.Writes (item.write start stop) s n t bytes := by
  cases item with
  | raw run =>
    have hw := Emit.put_writes h
    obtain ⟨-, -, rfl⟩ := Emit.put_eq_ok.1 h
    exact ⟨rfl, run.toList, run.length_toList, hw⟩
  | reserve count =>
    have hw := Emit.put_writes h
    obtain ⟨-, -, rfl⟩ := Emit.put_eq_ok.1 h
    exact ⟨rfl, _, Run.length_toList _, hw⟩
  | data field =>
    obtain ⟨rfl, value, -, hw⟩ := Field.write_writes h
    exact ⟨rfl, _, value.length_leBytes field.size, hw⟩
  | instruction encoded =>
    rw [write, bind_eq_ok] at h
    obtain ⟨count, u, hput, h⟩ := h
    have hw := Emit.put_writes hput
    obtain ⟨-, -, rfl⟩ := Emit.put_eq_ok.1 hput
    -- the fields count on from the fixed bytes
    obtain ⟨rfl, bytes, hlen, hrest⟩ := Encoded.writeFields_writes h
    refine ⟨rfl, encoded.bytes ++ bytes, ?_, hw.bind hrest⟩
    rw [List.length_append, hlen]
    rfl

/-- An item fails for a reason of writing. -/
theorem write_isOfWriting {item : Item} {start stop : Word} {s t : Emission} {e : AssemblyError}
    (h : item.write start stop s = .error e t) : e.IsOfWriting := by
  cases item with
  | raw run =>
    rw [Emit.put_error h]
    trivial
  | reserve count =>
    rw [Emit.put_error h]
    trivial
  | data field =>
    have hwrap : ∀ cause, (AssemblyError.expression field.expr.text cause).IsOfWriting :=
      fun _ => trivial
    exact Field.write_isOfWriting hwrap h
  | instruction encoded =>
    rw [write, bind_eq_error] at h
    rcases h with h | ⟨count, u, -, h⟩
    · rw [Emit.put_error h]
      trivial
    · exact Encoded.writeFields_isOfWriting h

/-- The item's bytes are handed over and the cursor moves past them. The check in between always
passes. -/
theorem emit_apply (item : Item) (s : Emission) :
    item.emit s =
      match item.write s.context.address (s.context.address + .ofNat item.length) s with
      | .error e t => .error e t
      | .ok n t => .ok n { t with context :=
          { t.context with address := s.context.address + .ofNat item.length } } := by
  show (do
    let written ← item.write s.context.address (s.context.address + .ofNat item.length)
    if written ≠ item.length then
      throw (.lengthMismatch s.context.address item.length written)
    modify fun t => { t with context :=
      { t.context with address := s.context.address + .ofNat item.length } }
    return written : Emit Nat) s = _
  rw [bind_apply]
  cases hw : item.write s.context.address (s.context.address + .ofNat item.length) s with
  | error e t => rfl
  | ok n t =>
    -- the count is the length, and the check drops out
    obtain ⟨rfl, -⟩ := write_writes hw
    simp only [ne_eq, not_true_eq_false, ↓reduceIte]
    rfl

/-- An item is emitted when its bytes are handed over. -/
theorem emit_eq_ok {item : Item} {s t : Emission} {n : Nat} :
    item.emit s = .ok n t ↔
      ∃ u, item.write s.context.address (s.context.address + .ofNat item.length) s = .ok n u ∧
        t = { u with context :=
          { u.context with address := s.context.address + .ofNat item.length } } := by
  rw [emit_apply]
  cases item.write s.context.address (s.context.address + .ofNat item.length) s with
  | error e u => simp
  | ok m u => grind

/-- An item hands over the same bytes when the cursor moves past it. -/
theorem writes_emit {item : Item} {s u : Emission} {n : Nat} {bytes : List UInt8}
    (h : Emit.Writes (item.write s.context.address (s.context.address + .ofNat item.length))
      s n u bytes) :
    Emit.Writes item.emit s n
      { u with context := { u.context with address := s.context.address + .ofNat item.length } }
      bytes := by
  refine ⟨h.sink, ?_⟩
  intro kept
  exact emit_eq_ok.2 ⟨_, h.replay kept, rfl⟩

/-- An item that is emitted hands over as many bytes as its length says, and moves the cursor by as
many. -/
theorem emit_writes {item : Item} {s t : Emission} {n : Nat} (h : item.emit s = .ok n t) :
    n = item.length ∧ t.context.address = s.context.address + .ofNat item.length ∧
      ∃ bytes, bytes.length = item.length ∧ Emit.Writes item.emit s n t bytes := by
  obtain ⟨u, hw, rfl⟩ := emit_eq_ok.1 h
  obtain ⟨rfl, bytes, hlen, hwrites⟩ := write_writes hw
  exact ⟨rfl, rfl, bytes, hlen, writes_emit hwrites⟩

theorem emit_isOfWriting {item : Item} {s t : Emission} {e : AssemblyError}
    (h : item.emit s = .error e t) : e.IsOfWriting := by
  rw [emit_apply] at h
  split at h
  next hw =>
    cases h
    exact write_isOfWriting hw
  · cases h

/-- Items written in order, after `count` bytes. -/
def emitFrom (count : Nat) (items : List Item) : Emit Nat :=
  items.foldlM (fun count item => return count + (← item.emit)) count

theorem emitAll_eq_emitFrom (items : List Item) : emitAll items = emitFrom 0 items := rfl

theorem emitFrom_cons (count : Nat) (item : Item) (items : List Item) :
    emitFrom count (item :: items) = item.emit >>= fun n => emitFrom (count + n) items := by
  simp only [emitFrom, List.foldlM_cons, bind_assoc, pure_bind]

theorem emitFrom_append (count : Nat) (a b : List Item) :
    emitFrom count (a ++ b) = emitFrom count a >>= fun n => emitFrom n b := by
  simp only [emitFrom, List.foldlM_append]

/-- The run over items, cut at one of them. -/
theorem emitFrom_at {items : List Item} {i : Nat} {item : Item} (h : items[i]? = some item)
    (count : Nat) :
    emitFrom count items =
      emitFrom count (items.take i) >>= fun m =>
        item.emit >>= fun n => emitFrom (m + n) (items.drop (i + 1)) := by
  conv => lhs; rw [eq_take_append_cons_drop h]
  simp only [emitFrom_append, emitFrom_cons]

/-- The bytes before are only counted along. -/
theorem emitFrom_count (count : Nat) (items : List Item) (s : Emission) :
    emitFrom count items s =
      match emitFrom 0 items s with
      | .ok n t => .ok (count + n) t
      | .error e t => .error e t := by
  induction items generalizing count s with
  | nil => rfl
  | cons item items ih =>
    simp only [emitFrom_cons, bind_apply]
    cases item.emit s with
    | error e t => rfl
    | ok n t =>
      dsimp only
      -- both runs over the rest are brought to start from zero
      rw [ih (count + n), ih (0 + n)]
      cases emitFrom 0 items t with
      | error e u => rfl
      | ok m u => simp [Nat.add_assoc]

theorem output_emitFrom (count : Nat) (items : List Item) (ctx : Context) :
    Emit.output (emitFrom count items) ctx = Emit.output (emitAll items) ctx := by
  unfold Emit.output
  rw [emitFrom_count, emitAll_eq_emitFrom]
  cases emitFrom 0 items ⟨ctx, .new none⟩ <;> rfl

/-- Items that are written hand over as many bytes as their lengths say, and move the cursor by as
many. -/
theorem emitFrom_writes {items : List Item} {count n : Nat} {s t : Emission}
    (h : emitFrom count items s = .ok n t) :
    n = count + totalLength items ∧ t.context.address = advance s.context.address items ∧
      ∃ bytes, bytes.length = totalLength items ∧
        Emit.Writes (emitFrom count items) s n t bytes := by
  induction items generalizing count s with
  | nil =>
    cases h
    exact ⟨rfl, rfl, [], rfl, .pure _ _⟩
  | cons item items ih =>
    rw [emitFrom_cons, bind_eq_ok] at h
    obtain ⟨m, u, hitem, h⟩ := h
    obtain ⟨rfl, haddr, bytes, hlen, hw⟩ := emit_writes hitem
    obtain ⟨rfl, haddr', rest, hlen', hrest⟩ := ih h
    refine ⟨by rw [totalLength_cons, Nat.add_assoc], ?_, bytes ++ rest, ?_, ?_⟩
    · rw [haddr', haddr, advance_cons]
    · rw [List.length_append, hlen, hlen', totalLength_cons]
    · rw [emitFrom_cons]
      exact hw.bind hrest

theorem emitFrom_isOfWriting {items : List Item} {count : Nat} {s t : Emission}
    {e : AssemblyError} (h : emitFrom count items s = .error e t) : e.IsOfWriting := by
  induction items generalizing count s with
  | nil => cases h
  | cons item items ih =>
    rw [emitFrom_cons, bind_eq_error] at h
    rcases h with h | ⟨n, u, -, h⟩
    · exact emit_isOfWriting h
    · exact ih h

end Item

end Assembler
