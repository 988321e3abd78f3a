import Assembler.Error
import Assembler.Item

/-!
# Writing items

The second pass. Each item is written at the cursor, its fields are evaluated there, and the cursor
moves by the item's length. What a failing item did to the tables and to the sink stays; the cursor
moves only when the whole item is written. The bytes can go to any writer.

* `Field.settle`: the number to write for a field, with the symbols and relocations it gave rise to.
* `Item.write`: hands the bytes of an item to the sink, and counts them.
* `Item.emit`: writes an item and moves the cursor.
-/

namespace Assembler

/-- What the second pass changes. -/
structure EmissionTo (W : Type) where
  context : Context
  sink : W

/-- A step of the second pass. Its effects stay when it fails. -/
abbrev EmitTo (W : Type) := EStateM AssemblyError (EmissionTo W)

/-- What the second pass to a `Sink` changes. -/
abbrev Emission := EmissionTo Sink

/-- A step of the second pass to a `Sink`. -/
abbrev Emit := EmitTo Sink

variable {W : Type}

namespace Emit

/-- Runs a step on the context. -/
def onContext {α : Type} (step : EStateM AssemblyError Context α) : EmitTo W α := fun s =>
  match step s.context with
  | .ok a ctx => .ok a { s with context := ctx }
  | .error e ctx => .error e { s with context := ctx }

/-- Runs a step with a sink that keeps nothing in place of the writer. -/
def discarding {α : Type} (step : Emit α) : EmitTo W α := fun s =>
  match step ⟨s.context, .discard⟩ with
  | .ok a t => .ok a { s with context := t.context }
  | .error e t => .error e { s with context := t.context }

/-- Hands a run of bytes to the sink, and gives its length. A run can be of any length, also of 2^63
bytes or more, which no machine can hold. -/
def put [Writer W] (run : Run) : EmitTo W Nat := do
  let s ← get
  let (sink, fits) := Writer.write s.sink run
  set { s with sink := sink }
  if fits then return run.length else throw .sinkFull

end Emit

namespace Field

/-- The number to write for a field at `address`, where distances count from `stop`. A field that
has to wait for a symbol is listed for relocation and written as zero. -/
def settle (f : Field) (address stop : Word) : Evaluate Word := do
  let v ← MonadExcept.ofExcept (f.expr.eval (← get))
  match ← v.resolve, f.kind with
  | .value v, .absolute => return v
  | .value v, .relative => return v - stop
  | .relocate symbol addend, .absolute =>
    modify fun ctx => ctx.addRelocation symbol address addend .absolute f.size
    return 0
  | .relocate symbol addend, .relative =>
    modify fun ctx =>
      ctx.addRelocation symbol address (addend - (stop - address)) .pcRelative f.size
    return 0

/-- Writes a field, and counts its bytes. `wrap` says where an expression failed. -/
def write [Writer W] (f : Field) (address stop : Word) (wrap : EvalError → AssemblyError) :
    EmitTo W Nat := do
  let value ← Emit.onContext ((f.settle address stop).adaptExcept wrap)
  if f.accepts value then Emit.put (.literal (value.leBytes f.size))
  else throw (.encoding f.expr.text (.outOfRange value f.size))

end Field

variable [Writer W]

namespace Encoded

/-- Where a field of an instruction failed: at its operand, if it belongs to one. -/
def fieldError (e : Encoded) (f : Field) (cause : EvalError) : AssemblyError :=
  match f.operand with
  | some index => .operand e.text index cause
  | none => .expression e.text cause

/-- Writes fields one after the other, the first of them `written` bytes after `start`. -/
def writeFields (e : Encoded) (start stop : Word) : (written : Nat) → List Field → EmitTo W Nat
  | written, [] => return written
  | written, f :: rest => do
    let count ← f.write (start + .ofNat written) stop (e.fieldError f)
    writeFields e start stop (written + count) rest

end Encoded

namespace Item

/-- Hands the bytes of an item at `start` to the sink, and counts them. -/
def write (item : Item) (start stop : Word) : EmitTo W Nat :=
  match item with
  | .raw run => Emit.put run
  | .reserve count => Emit.put (.fill count 0)
  | .data field => field.write start stop (.expression field.expr.text)
  | .instruction encoded => do
    let count ← Emit.put (.literal encoded.bytes)
    encoded.writeFields start stop count encoded.fields

/-- Writes an item at `start` and moves the cursor past it. Gives the number of bytes. -/
def emitAt (item : Item) (start : Word) : EmitTo W Nat := do
  let stop := start + .ofNat item.length
  let written ← item.write start stop
  if written ≠ item.length then throw (.lengthMismatch start item.length written)
  modify fun s => { s with context := { s.context with address := stop } }
  return written

/-- Writes an item at the cursor. -/
def emit (item : Item) : EmitTo W Nat := do
  item.emitAt (← get).context.address

/-- Writes items in order, and counts their bytes. -/
def emitAll (items : List Item) : EmitTo W Nat :=
  items.foldlM (fun count item => return count + (← item.emit)) 0

end Item

end Assembler
