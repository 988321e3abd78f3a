import Assembler.Proofs.TwoPass

/-!
# Layouts and items in two lists

An object file keeps the place of a section and the items in it as one record. `SplitObject` keeps
them in two lists. The first pass clears both, and pushes to the one and then to the other; the
second walks over pairs of their members, and takes the section at the index of the pair, where an
index behind the last section is a fault. Nothing in its type says that the lists belong together.

`ObjectFile.split` puts an object file into that form. The passes do to the two lists what they do
to the records, in every state in which a record belongs to a section: `construct_split`,
`emit_split`. So the lists have one length whenever a pass begins, and the walk over them meets no
fault.
-/

namespace Assembler

/-- Where a section starts and stops. -/
structure Layout where
  start : Word
  stop : Word

/-- A program in sections, with the layouts and the items of those that are laid out. -/
structure SplitObject where
  sections : List Section
  container : Container
  context : Context
  stage : Stage
  layouts : List Layout
  items : List (List Item)

/-- Why a pass over a `SplitObject` stops. -/
inductive Fault
  | assembly (cause : AssemblyError)
  /-- There is no section at the index. -/
  | outOfBounds (index : Nat)

/-- A `SplitObject` on its way to a writer. -/
structure SplitEmission (W : Type) where
  object : SplitObject
  sink : W

namespace SplitObject

/-! ## The passes -/

/-- An object file without sections. -/
def new (mode : Mode) (container : Container) : SplitObject :=
  ⟨[], container, .new mode, .fresh, [], []⟩

/-- The object file with a section after the others. -/
def addSection (x : SplitObject) (s : Section) : SplitObject :=
  { x with sections := x.sections ++ [s] }

/-- Runs a step of the first pass on the context. -/
def placing {α : Type} (m : Construct α) : EStateM Fault SplitObject α := fun x =>
  match m x.context with
  | .ok a ctx => .ok a { x with context := ctx }
  | .error e ctx => .error (.assembly e) { x with context := ctx }

/-- Lays sections out from `index` on, after one that stops at `stop`. -/
def constructFrom (index : Nat) (stop : Word) : List Section → EStateM Fault SplitObject Unit
  | [] => return
  | s :: rest => do
    let start ← placing (MonadExcept.ofExcept ((s.startAfter stop).mapError .argument))
    placing (modify fun ctx => (ctx.openSection index start).2)
    let items ← placing (Statement.constructAll s.contents)
    if s.kind = .bss && !items.all Item.isZeroFill then
      throw (.assembly (.argument (.initializedBss s.name)))
    let stop := (← get).context.address
    modify fun x => { x with layouts := x.layouts ++ [⟨start, stop⟩] }
    modify fun x => { x with items := x.items ++ [items] }
    constructFrom (index + 1) stop rest

/-- The first pass. -/
def construct : EStateM Fault SplitObject Unit := do
  let stage := (← get).stage
  if stage ≠ .fresh then throw (.assembly (.wrongStage .construct stage))
  modify fun x => { x with context := .new x.context.mode }
  modify fun x => { x with layouts := [] }
  modify fun x => { x with items := [] }
  constructFrom 0 0 (← get).sections
  modify fun x => { x with stage := .constructed }

variable {W : Type}

/-- Runs a step of the second pass on the context and the writer. -/
def writing {α : Type} (m : EmitTo W α) : EStateM Fault (SplitEmission W) α := fun s =>
  match m ⟨s.object.context, s.sink⟩ with
  | .ok a t => .ok a ⟨{ s.object with context := t.context }, t.sink⟩
  | .error e t => .error (.assembly e) ⟨{ s.object with context := t.context }, t.sink⟩

variable [Writer W]

/-- Writes the sections of layouts and items from `index` on. -/
def emitFrom (index : Nat) (cursor : Option Word) (written : Nat) :
    List (Layout × List Item) → EStateM Fault (SplitEmission W) Nat
  | [] => return written
  | (layout, items) :: rest => do
    match (← get).object.sections[index]? with
    | none => throw (.outOfBounds index)
    | some s =>
      let count ← writing (s.emit index ⟨layout.start, layout.stop, items⟩ cursor)
      let cursor := if s.kind = .bss then cursor else some layout.stop
      emitFrom (index + 1) cursor (written + count) rest

/-- Moves the stage when everything is written, and then asks the container. -/
def finish (written : Nat) : EStateM Fault (SplitEmission W) Nat := do
  modify fun s => { s with object := { s.object with stage := .emitted } }
  let x := (← get).object
  match x.container.check x.context.symbols x.sections with
  | .error e => throw (.assembly (.container e))
  | .ok () => return written

/-- The second pass. -/
def emit : EStateM Fault (SplitEmission W) Nat := do
  let stage := (← get).object.stage
  if stage ≠ .constructed then throw (.assembly (.wrongStage .emit stage))
  modify fun s => { s with object := { s.object with context := s.object.context.reset } }
  let x := (← get).object
  let written ← emitFrom 0 none 0 (x.layouts.zip x.items)
  finish written

end SplitObject

/-! ## Object files, split -/

namespace PlacedSection

/-- Where the section is. -/
def layout (p : PlacedSection) : Layout := ⟨p.start, p.stop⟩

end PlacedSection

namespace ObjectFile

/-- The object file with its places and its items in two lists. -/
def split (obj : ObjectFile) : SplitObject :=
  ⟨obj.sections, obj.container, obj.context, obj.stage, obj.placed.map PlacedSection.layout,
    obj.placed.map PlacedSection.items⟩

/-- The two lists have one length. -/
theorem length_layouts_split (obj : ObjectFile) :
    obj.split.layouts.length = obj.split.items.length := by
  rw [split, List.length_map, List.length_map]

/-- What the first pass comes to, split. -/
def splitAnswer : Except AssemblyError Unit × ObjectFile → EStateM.Result Fault SplitObject Unit
  | (.ok (), obj) => .ok () obj.split
  | (.error e, obj) => .error (.assembly e) obj.split

/-- What the second pass comes to, split. -/
def splitOutcome {W : Type} :
    Except AssemblyError Nat × ObjectFile × W → EStateM.Result Fault (SplitEmission W) Nat
  | (.ok written, obj, sink) => .ok written ⟨obj.split, sink⟩
  | (.error e, obj, sink) => .error (.assembly e) ⟨obj.split, sink⟩

theorem splitOutcome_ne_outOfBounds {W : Type} (outcome : Except AssemblyError Nat × ObjectFile × W)
    (index : Nat) (after : SplitEmission W) :
    splitOutcome outcome ≠ .error (.outOfBounds index) after := by
  obtain ⟨result, obj, sink⟩ := outcome
  cases result <;> nofun

end ObjectFile

namespace SplitObject

/-! ## The first pass -/

/-- The object file after the sections up to here are laid out, in the given context. -/
def laidOut (x : SplitObject) (ctx : Context) (placed : List PlacedSection) : SplitObject :=
  { x with
    context := ctx
    layouts := placed.map PlacedSection.layout
    items := placed.map PlacedSection.items }

/-- One section is laid out as it is with records, and then a member is pushed to each list. -/
theorem constructFrom_cons (index : Nat) (stop : Word) (s : Section) (rest : List Section)
    (x : SplitObject) (ctx : Context) (placed : List PlacedSection) :
    constructFrom index stop (s :: rest) (x.laidOut ctx placed) =
      match s.construct index stop ctx with
      | .ok p after => constructFrom (index + 1) p.stop rest (x.laidOut after (placed ++ [p]))
      | .error e after => .error (.assembly e) (x.laidOut after placed) := by
  rw [constructFrom, Section.construct]
  cases s.startAfter stop with
  | error e => rfl
  | ok start =>
    have hstart : (Except.ok start : Except ArgumentError Word).mapError AssemblyError.argument =
        .ok start := rfl
    simp only [hstart, ofExcept_ok, placing, bind_apply, pure_apply, modify_apply, laidOut]
    cases Statement.constructAll s.contents (ctx.openSection index start).2 with
    | error e after => rfl
    | ok items after =>
      dsimp only
      split
      · rfl
      · simp [bind_apply, PlacedSection.layout]

/-- Sections are laid out as they are with records, up to the first that fails. -/
theorem constructFrom_laidOut (sections : List Section) (index : Nat) (stop : Word)
    (x : SplitObject) (ctx : Context) (placed : List PlacedSection) :
    constructFrom index stop sections (x.laidOut ctx placed) =
      match ObjectFile.constructSections index stop placed ctx sections with
      | (.ok (), after, placed) => .ok () (x.laidOut after placed)
      | (.error e, after, placed) => .error (.assembly e) (x.laidOut after placed) := by
  induction sections generalizing index stop ctx placed with
  | nil => rfl
  | cons s rest ih =>
    rw [constructFrom_cons, ObjectFile.constructSections]
    cases s.construct index stop ctx with
    | error e after => rfl
    | ok p after => exact ih (index + 1) p.stop after (placed ++ [p])

/-- The first pass does to the two lists what it does to the records. -/
theorem construct_split (obj : ObjectFile) :
    construct obj.split = ObjectFile.splitAnswer obj.construct := by
  by_cases hstage : obj.stage = .fresh
  · -- both lists are cleared before the walk begins
    have hrun : construct obj.split =
        (constructFrom 0 0 obj.sections >>= fun _ =>
          modify fun x : SplitObject => { x with stage := .constructed })
          (obj.split.laidOut (.new obj.context.mode) []) := by
      simp only [construct, bind_apply, get_apply, modify_apply, ObjectFile.split, hstage]
      rfl
    rw [hrun, bind_apply, constructFrom_laidOut, ObjectFile.construct_of_fresh hstage]
    obtain ⟨result, after, placed⟩ :=
      ObjectFile.constructSections 0 0 [] (.new obj.context.mode) obj.sections
    cases result with
    | error e =>
      simp [ObjectFile.splitAnswer, ObjectFile.split, laidOut, hstage, Except.isOk, Except.toBool]
    | ok u => rfl
  · rw [ObjectFile.construct_of_ne_fresh hstage]
    simp [construct, bind_apply, ObjectFile.split, ObjectFile.splitAnswer, hstage]

/-! ## The second pass -/

variable {W : Type}

theorem writing_bind {α β : Type} (m : EmitTo W α) (f : α → EmitTo W β) :
    writing (m >>= f) = writing m >>= fun a => writing (f a) := by
  funext s
  simp only [writing, bind_apply]
  cases m ⟨s.object.context, s.sink⟩ <;> rfl

theorem sections_of_writing {α : Type} {m : EmitTo W α} {s t : SplitEmission W} {a : α}
    (h : writing m s = .ok a t) : t.object.sections = s.object.sections := by
  unfold writing at h
  split at h
  · cases h
    rfl
  · cases h

theorem finish_split (obj : ObjectFile) (written : Nat) (ctx : Context) (sink : W) :
    finish written ⟨{ obj.split with context := ctx }, sink⟩ =
      ObjectFile.splitOutcome
        (let obj := { obj with context := ctx, stage := .emitted }
        match obj.container.check obj.context.symbols obj.sections with
        | .error e => (.error (.container e), obj, sink)
        | .ok () => (.ok written, obj, sink)) := by
  simp only [finish, bind_apply, modify_apply, get_apply, ObjectFile.split]
  cases obj.container.check ctx.symbols obj.sections <;> rfl

variable [Writer W]

/-- A walk over two lists writes what a walk over the records does. The index of a record is that of
its section. -/
theorem emitFrom_eq_writing {sections : List Section} (placed : List PlacedSection) (index : Nat)
    (cursor : Option Word) (written : Nat) (s : SplitEmission W)
    (hsections : s.object.sections = sections)
    (hlength : index + placed.length ≤ sections.length) :
    emitFrom index cursor written
        ((placed.map PlacedSection.layout).zip (placed.map PlacedSection.items)) s =
      writing (ObjectFile.emitSections index cursor written ((sections.drop index).zip placed))
        s := by
  induction placed generalizing index cursor written s with
  | nil =>
    rw [List.zip_nil_right]
    rfl
  | cons p placed ih =>
    rw [List.length_cons] at hlength
    have hlt : index < sections.length := by omega
    have hplace : (⟨p.layout.start, p.layout.stop, p.items⟩ : PlacedSection) = p := rfl
    rw [List.drop_eq_getElem_cons hlt, List.zip_cons_cons, ObjectFile.emitSections_cons,
      writing_bind, List.map_cons, List.map_cons, List.zip_cons_cons, emitFrom, bind_apply,
      get_apply]
    dsimp only
    rw [hsections, List.getElem?_eq_getElem hlt]
    dsimp only
    rw [bind_apply, bind_apply, hplace]
    cases hrun : writing (sections[index].emit index p cursor) s with
    | error e t => rfl
    | ok count t =>
      have hkept := (sections_of_writing hrun).trans hsections
      exact ih (index + 1) _ (written + count) t hkept (by omega)

/-- The second pass does with the two lists what it does with the records. -/
theorem emit_split {obj : ObjectFile} (hlength : obj.placed.length ≤ obj.sections.length)
    (sink : W) : emit ⟨obj.split, sink⟩ = ObjectFile.splitOutcome (obj.emitTo sink) := by
  by_cases hstage : obj.stage = .constructed
  · let s : SplitEmission W := ⟨{ obj.split with context := obj.context.reset }, sink⟩
    have hrun : emit ⟨obj.split, sink⟩ =
        (emitFrom 0 none 0 (obj.split.layouts.zip obj.split.items) >>= finish) s := by
      simp only [emit, bind_apply, get_apply, ObjectFile.split, hstage, s]
      rfl
    have hwalk : emitFrom 0 none 0 (obj.split.layouts.zip obj.split.items) s =
        writing (ObjectFile.emitSections 0 none 0 (obj.sections.zip obj.placed)) s :=
      emitFrom_eq_writing obj.placed 0 none 0 s rfl (by rwa [Nat.zero_add])
    rw [hrun, bind_apply, hwalk, ObjectFile.emitTo_eq hstage, writing]
    cases ObjectFile.emitSections 0 none 0 (obj.sections.zip obj.placed)
        ⟨obj.context.reset, sink⟩ with
    | error e t => rfl
    | ok written t => exact finish_split obj written t.context t.sink
  · rw [ObjectFile.emitTo_of_ne_constructed hstage]
    simp [emit, bind_apply, ObjectFile.split, ObjectFile.splitOutcome, hstage]

end SplitObject

end Assembler
