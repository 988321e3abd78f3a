import Assembler.Container
import Assembler.Item.Emit
import Assembler.Statement.Construct

/-!
# Object files

Sections assembled in two passes. `construct` lays the sections out and fixes every length and
symbol address; `emit` writes the image in address order, with zeros between sections, and then asks
the container whether it can express the result.

A pass that fails keeps what it did to the tables. Only the stage tells whether it succeeded.
-/

namespace Assembler

/-- Number of bytes from one address to another, zero if 64 bits do not hold it. -/
def span (start stop : Word) : Nat := (stop - start).toCount?.getD 0

/-- A section with its place and its items. -/
structure PlacedSection where
  start : Word
  stop : Word
  items : List Item

/-- Number of bytes of the section. -/
def PlacedSection.length (p : PlacedSection) : Nat := span p.start p.stop

/-- A program in sections, on its way to an image. -/
structure ObjectFile where
  sections : List Section
  container : Container
  context : Context
  stage : Stage
  /-- The sections that are laid out, in order. -/
  placed : List PlacedSection

variable {W : Type} [Writer W]

namespace Section

/-- Start of a section after one that stops at `stop`. -/
def startAfter (s : Section) (stop : Word) : Except ArgumentError Word :=
  if !Word.isPowerOfTwoNat s.alignment.toNat then .error (.notPowerOfTwo s.alignment)
  else match s.address with
    | none => .ok (stop.align s.alignment)
    | some start =>
      if start.toInt < stop.toInt then .error (.overlappingSection s.name start stop)
      else .ok start

/-- Lays a section out after one that stops at `stop`. -/
def construct (s : Section) (id : SectionId) (stop : Word) : Construct PlacedSection := do
  match s.startAfter stop with
  | .error e => throw (.argument e)
  | .ok start =>
    modify fun ctx => (ctx.openSection id start).2
    let items ← Statement.constructAll s.contents
    if s.kind = .bss && !items.all Item.isZeroFill then
      throw (.argument (.initializedBss s.name))
    return ⟨start, (← get).address, items⟩

/-- Zeros between the last section of the image, which stopped at `cursor`, and `start`. -/
def emitGap (cursor : Option Word) (start : Word) : EmitTo W Nat :=
  match cursor with
  | none => return 0
  | some stop =>
    let gap := span stop start
    if gap = 0 then return 0 else Emit.put (.fill gap 0)

/-- Writes a section, and counts the bytes of the image that it and the gap before it take. The
count has no bound; a machine has 64 bits for it. -/
def emit (s : Section) (id : SectionId) (p : PlacedSection) (cursor : Option Word) :
    EmitTo W Nat := do
  let bss := s.kind = .bss
  modify fun t => { t with context := t.context.enterSection id p.start }
  let gap ← if bss then pure 0 else emitGap cursor p.start
  let count ← if bss then Emit.discarding (Item.emitAll p.items) else Item.emitAll p.items
  if (← get).context.address ≠ p.stop then throw (.lengthMismatch p.start p.length count)
  return if bss then 0 else gap + count

end Section

namespace ObjectFile

/-- An object file without sections. -/
def new (mode : Mode) (container : Container) : ObjectFile :=
  ⟨[], container, .new mode, .fresh, []⟩

/-- The object file with a section after the others. -/
def addSection (obj : ObjectFile) (s : Section) : ObjectFile :=
  { obj with sections := obj.sections ++ [s] }

/-- Lays sections out from `id` on, after those in `placed`, up to the first that fails. -/
def constructSections (id : SectionId) (stop : Word) (placed : List PlacedSection)
    (ctx : Context) : List Section → Except AssemblyError Unit × Context × List PlacedSection
  | [] => (.ok (), ctx, placed)
  | s :: rest =>
    match s.construct id stop ctx with
    | .ok p ctx => constructSections (id + 1) p.stop (placed ++ [p]) ctx rest
    | .error e ctx => (.error e, ctx, placed)

/-- The first pass. It starts from empty tables. -/
def construct (obj : ObjectFile) : Except AssemblyError Unit × ObjectFile :=
  if obj.stage ≠ .fresh then (.error (.wrongStage .construct obj.stage), obj)
  else
    let (result, ctx, placed) :=
      constructSections 0 0 [] (.new obj.context.mode) obj.sections
    let stage := if result.isOk then Stage.constructed else Stage.fresh
    (result, { obj with context := ctx, placed := placed, stage := stage })

/-- Writes sections from `id` on. `cursor` is where the image stops so far, and `written` counts its
bytes, without the bound of the 64 bits that a machine has for it. -/
def emitSections (id : SectionId) (cursor : Option Word) (written : Nat) :
    List (Section × PlacedSection) → EmitTo W Nat
  | [] => return written
  | (s, p) :: rest => do
    let count ← s.emit id p cursor
    let cursor := if s.kind = .bss then cursor else some p.stop
    emitSections (id + 1) cursor (written + count) rest

/-- The second pass to a writer, and the number of bytes of the image. It keeps the tables of the
first and of any failed try before it. The container is asked when everything is written. -/
def emitTo (obj : ObjectFile) (sink : W) : Except AssemblyError Nat × ObjectFile × W :=
  if obj.stage ≠ .constructed then (.error (.wrongStage .emit obj.stage), obj, sink)
  else
    match emitSections 0 none 0 (obj.sections.zip obj.placed) ⟨obj.context.reset, sink⟩ with
    | .error e s => (.error e, { obj with context := s.context }, s.sink)
    | .ok written s =>
      let obj := { obj with context := s.context, stage := .emitted }
      match obj.container.check obj.context.symbols obj.sections with
      | .error e => (.error (.container e), obj, s.sink)
      | .ok () => (.ok written, obj, s.sink)

/-- The second pass, and the number of bytes of the image. -/
def emit (obj : ObjectFile) (sink : Sink) : Except AssemblyError Nat × ObjectFile × Sink :=
  obj.emitTo sink

/-- Both passes, and the number of bytes of the image. -/
def assemble (obj : ObjectFile) (sink : Sink) : Except AssemblyError Nat × ObjectFile × Sink :=
  match obj.construct with
  | (.error e, obj) => (.error e, obj, sink)
  | (.ok (), obj) => obj.emit sink

end ObjectFile

end Assembler
