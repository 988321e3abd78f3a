import Assembler.Error
import Assembler.Item
import Assembler.Statement

/-!
# Placing statements

The first pass. A statement defines symbols at the cursor and becomes items, by whose lengths the
cursor moves. What is done when a step fails stays done: in a group, that is what came before the
failing statement.

* `Context.checkNew`, `Context.defineValue`: the test that comes before a declaration, and what a
  definition does after it.
* `Statement.place`: what a statement other than a group does, without moving the cursor.
* `Statement.construct`, `Statement.constructAll`: place statements one after the other.
-/

namespace Assembler

/-- A step of the first pass. Its effects stay when it fails. -/
abbrev Construct := EStateM AssemblyError Context

/-- The cursor after items. -/
def advance (address : Word) (items : List Item) : Word :=
  items.foldl (fun address item => address + .ofNat item.length) address

namespace DataDeclaration

/-- Whether values of this width can be declared. -/
def isValueSize : DataSize → Bool
  | .unsized => false
  | .bit80 => false
  | _ => true

/-- One declared value. A literal is settled now, everything else when it is written. -/
def valueItem (size : DataSize) (e : Expr) : Except AssemblyError Item :=
  match e.literal with
  | some v =>
    if v.fitsEither size then .ok (.raw (.literal (v.leBytes size)))
    else .error (.encoding e.text (.outOfRange v size))
  | none => .ok (.data (.absolute e size))

/-- The items of a declaration. Reserved space is counted in 64 bits. -/
def items : DataDeclaration → Except AssemblyError (List Item)
  | .bytes content => .ok [.raw (.literal content)]
  | .reserve size count =>
    let total := count.toNat * size.bytes
    if total < UInt64.size then .ok [.reserve total] else .error (.argument (.invalidSize size))
  | .values size exprs =>
    if isValueSize size then exprs.mapM (valueItem size)
    else .error (.argument (.invalidSize size))

end DataDeclaration

namespace Context

/-- Checks that an identifier can be declared. -/
def checkNew (ctx : Context) (identifier : String) : Except AssemblyError Unit :=
  if identifier.isEmpty then .error (.argument .emptyIdentifier)
  else if (ctx.symbols.find? identifier).isSome then .error (.duplicateSymbol identifier)
  else .ok ()

/-- Names the value of an expression. An address is defined in the section of the symbol that it
moves with. -/
def defineValue (identifier : String) (e : Expr) (kind : SymbolKind) : Evaluate Unit := do
  let v ← MonadExcept.ofExcept (e.eval (← get))
  let symbol := Symbol.declare identifier kind
  match v.anchor with
  | none =>
    modify fun ctx => (ctx.insert { symbol with isAbsolute := true, value := v.constant }).2
  | some (.symbol id) =>
    match Value.homeOf? (← get).symbols id with
    | none => throw (.illegalOperation "equ")
    | some home =>
      modify fun ctx =>
        { ctx with symbols := (ctx.symbols.define symbol v.constant (some home) ctx.file).2 }
  | some (.unresolved name) => throw (.unresolvedSymbol name)

end Context

namespace Statement

/-- Padding from the cursor to a multiple of `boundary`, which has to be a power of two. -/
def padding (ctx : Context) (boundary : UInt64) (fill : UInt8) :
    Except AssemblyError (List Item) :=
  if !Word.isPowerOfTwoNat boundary.toNat then .error (.argument (.notPowerOfTwo boundary))
  else
    let count := (ctx.address.padding boundary).toCount?.getD 0
    .ok (if count = 0 then [] else [.raw (.fill count fill)])

/-- Defines the symbols of a statement other than a group, and gives its items. -/
def place : Statement → Construct (List Item)
  | .label identifier kind => do
    MonadExcept.ofExcept ((← get).checkNew identifier)
    modify fun ctx => (ctx.defineHere (.declare identifier kind) ctx.address).2
    return []
  | .define identifier expr kind => do
    MonadExcept.ofExcept ((← get).checkNew identifier)
    (Context.defineValue identifier expr kind).adaptExcept (.expression identifier)
    return []
  | .external identifier => do
    MonadExcept.ofExcept ((← get).checkNew identifier)
    modify fun ctx => (ctx.insert (.declare identifier .imported)).2
    return []
  | .align boundary fill => do
    MonadExcept.ofExcept (padding (← get) boundary fill)
  | .data declaration => MonadExcept.ofExcept declaration.items
  | .comment _ => return []
  | .group _ => return []
  | .instruction i => do
    let ctx ← get
    match i.encode ctx.mode (i.knownValues (some ctx)) with
    | .ok encoded => return [.instruction encoded]
    | .error e => throw (.encoding i.text e)

/-- Places a statement other than a group at the cursor, and moves the cursor past its items. -/
def constructLeaf (s : Statement) : Construct (List Item) := do
  let items ← s.place
  modify fun ctx => { ctx with address := advance ctx.address items }
  return items

mutual

/-- Places a statement at the cursor, and moves the cursor past its items. -/
def construct : Statement → Construct (List Item)
  | .group children => constructAll children
  | .label identifier kind => constructLeaf (.label identifier kind)
  | .define identifier expr kind => constructLeaf (.define identifier expr kind)
  | .external identifier => constructLeaf (.external identifier)
  | .align boundary fill => constructLeaf (.align boundary fill)
  | .data declaration => constructLeaf (.data declaration)
  | .comment text => constructLeaf (.comment text)
  | .instruction i => constructLeaf (.instruction i)

/-- Places statements one after the other, up to the first that fails. -/
def constructAll : List Statement → Construct (List Item)
  | [] => return []
  | s :: rest => do
    let items ← construct s
    let more ← constructAll rest
    return items ++ more

end

end Statement

end Assembler
