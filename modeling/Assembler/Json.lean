import Assembler.Word

/-!
# JSON values

The tree a JSON text stands for. Members of an object keep their order and may repeat. Integers have
a sign and a magnitude, so that minus zero is not zero. What nobody reads, such as a number with a
fraction, is kept as it is written.

The second half holds the readers of plain values and of records. They say only whether a value has
the shape asked for.

* `word?`, `nat?`, `uint8?`, `uint64?`, `bool?`, `string?`, `list?`, `option?` read plain values.
* `record?` gives the members of a record, and `required`, `optional`, `defaulted` read one of them.
  A member that occurs twice is refused; members that nobody asks for are ignored.
* `tag?` reads a case of a choice: a bare name, or an object of one member.
-/

namespace Assembler

/-- A JSON value. -/
inductive Json
  | null
  | bool (value : Bool)
  | integer (negative : Bool) (magnitude : Nat)
  /-- Any other well-formed text, as it is written. -/
  | raw (text : String)
  | string (value : String)
  | array (items : List Json)
  | object (members : List (String × Json))

namespace Json

instance : Inhabited Json := ⟨.null⟩

/-- The number `i`. -/
def ofInt (i : Int) : Json := .integer (i < 0) i.natAbs

/-- The number `n`. -/
def ofNat (n : Nat) : Json := .integer false n

/-- The number a word stands for. -/
def ofWord (w : Word) : Json := ofInt w.toInt

/-- An option, with `null` for an absent value. -/
def ofOption {α : Type} (write : α → Json) : Option α → Json
  | none => .null
  | some a => write a

/-! ## Reading plain values -/

/-- An integer in the range of a word. -/
def word? : Json → Option Word
  | .integer negative magnitude => Word.ofInt? (if negative then -magnitude else magnitude)
  | _ => none

/-- An integer without a sign, below `bound`. -/
def nat? (bound : Nat) : Json → Option Nat
  | .integer false magnitude => if magnitude < bound then some magnitude else none
  | _ => none

/-- An integer that one byte holds. -/
def uint8? (j : Json) : Option UInt8 := (j.nat? UInt8.size).map UInt8.ofNat

/-- An integer that eight bytes hold. -/
def uint64? (j : Json) : Option UInt64 := (j.nat? UInt64.size).map UInt64.ofNat

/-- A truth value. -/
def bool? : Json → Option Bool
  | .bool b => some b
  | _ => none

/-- A text. -/
def string? : Json → Option String
  | .string s => some s
  | _ => none

/-- An array, each of whose items `read` accepts. -/
def list? {α : Type} (read : Json → Option α) : Json → Option (List α)
  | .array items => items.mapM read
  | _ => none

/-- `null` for an absent value, or what `read` accepts. -/
def option? {α : Type} (read : Json → Option α) : Json → Option (Option α)
  | .null => some none
  | j => (read j).map some

/-! ## Reading records and choices -/

/-- The members of a record: those of an object, or the items of an array for its `fields` in turn.
An array has to hold the first `least` of them, and no more than there are. -/
def record? (fields : List String) (least : Nat) : Json → Option (List (String × Json))
  | .object members => some members
  | .array items =>
    if least ≤ items.length ∧ items.length ≤ fields.length then some (fields.zip items) else none
  | _ => none

/-- The member named `key`, or none if it is absent. Fails if it occurs more than once. -/
def member? (members : List (String × Json)) (key : String) : Option (Option Json) :=
  match members.filter (fun m => m.1 == key) with
  | [] => some none
  | [(_, value)] => some (some value)
  | _ => none

/-- Reads a member that has to be there. -/
def required {α : Type} (members : List (String × Json)) (key : String)
    (read : Json → Option α) : Option α := do
  read (← ← member? members key)

/-- Reads a member that may be absent or `null`. -/
def optional {α : Type} (members : List (String × Json)) (key : String)
    (read : Json → Option α) : Option (Option α) := do
  match ← member? members key with
  | none => some none
  | some value => value.option? read

/-- Reads a member that may be absent, for which `value` then stands. -/
def defaulted {α : Type} (members : List (String × Json)) (key : String) (value : α)
    (read : Json → Option α) : Option α := do
  match ← member? members key with
  | none => some value
  | some j => read j

/-- A case of a choice, with its payload if one is written. -/
def tag? : Json → Option (String × Option Json)
  | .string name => some (name, none)
  | .object [(name, payload)] => some (name, some payload)
  | _ => none

/-- Whether what is written after the name of a case without payload is acceptable. -/
def isUnitPayload : Option Json → Bool
  | none => true
  | some .null => true
  | some _ => false

/-- Reads a choice whose cases have no payload, each known by its name. -/
def named? {α : Type} (cases : List (String × α)) (j : Json) : Option α := do
  let (name, payload) ← j.tag?
  if isUnitPayload payload then cases.lookup name else none

end Json

end Assembler
