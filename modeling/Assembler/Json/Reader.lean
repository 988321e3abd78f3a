import Assembler.Json

/-!
# Reading JSON text

`Json.parse?` reads a whole text. What is well formed but stands for no value is kept as it is
written: arrays and objects nested more than `maxNesting` deep, strings with half of a surrogate
pair, and objects with such a string for a key. Nobody can read these, but they may stand where
nobody looks.

The reader recurses on a bound, the number of characters of the text: every level of nesting and
every item of an array or object takes at least one.
-/

namespace Assembler

namespace Json

/-- Deepest nesting of arrays and objects that stands for a value. -/
def maxNesting : Nat := 127

/-- What was read of `source`, when `rest` remains of it. -/
def consumed (source rest : List Char) : String :=
  String.ofList (source.take (source.length - rest.length))

/-- The white space that may stand between tokens. -/
def isBlank (c : Char) : Bool := c = ' ' || c = '\n' || c = '\t' || c = '\r'

/-- The text from its first character that is not white space. -/
def skip (cs : List Char) : List Char := cs.dropWhile isBlank

/-! ## Strings -/

/-- Value of a hexadecimal digit in either case. -/
def hexValue? (c : Char) : Option Nat :=
  if c.isDigit then some (c.toNat - '0'.toNat)
  else if 'a' ≤ c ∧ c ≤ 'f' then some (c.toNat - 'a'.toNat + 10)
  else if 'A' ≤ c ∧ c ≤ 'F' then some (c.toNat - 'A'.toNat + 10)
  else none

/-- Value of four hexadecimal digits. -/
def hexUnit? (a b c d : Char) : Option Nat := do
  some ((((← hexValue? a) * 16 + (← hexValue? b)) * 16 + (← hexValue? c)) * 16 + (← hexValue? d))

/-- Whether a code unit is the first of a surrogate pair. -/
def isHighSurrogate (unit : Nat) : Bool := 0xD800 ≤ unit && unit < 0xDC00

/-- Whether a code unit is the second of a surrogate pair. -/
def isLowSurrogate (unit : Nat) : Bool := 0xDC00 ≤ unit && unit < 0xE000

/-- The character that a surrogate pair stands for. -/
def ofSurrogates (high low : Nat) : Char :=
  Char.ofNat (0x10000 + (high - 0xD800) * 0x400 + (low - 0xDC00))

/-- The character after a backslash that stands for one character. -/
def escaped? : Char → Option Char
  | '"' => some '"'
  | '\\' => some '\\'
  | '/' => some '/'
  | 'b' => some '\x08'
  | 'f' => some '\x0c'
  | 'n' => some '\n'
  | 'r' => some '\r'
  | 't' => some '\t'
  | _ => none

/-- Reads the rest of a string after its opening quote. `read` holds what was read, last first, or
nothing if half of a surrogate pair was among it. A bare control character is refused. -/
def stringRest? (read : Option (List Char)) : List Char → Option (Option String × List Char)
  | [] => none
  | '"' :: rest => some (read.map fun read => String.ofList read.reverse, rest)
  | '\\' :: 'u' :: a :: b :: c :: d :: rest =>
    match hexUnit? a b c d with
    | none => none
    | some unit =>
      if isHighSurrogate unit then
        match rest with
        | '\\' :: 'u' :: e :: f :: g :: h :: more =>
          match hexUnit? e f g h with
          | none => none
          | some low =>
            if isLowSurrogate low then stringRest? (read.map (ofSurrogates unit low :: ·)) more
            else stringRest? none more
        | rest => stringRest? none rest
      else if isLowSurrogate unit then stringRest? none rest
      else stringRest? (read.map (Char.ofNat unit :: ·)) rest
  | '\\' :: c :: rest =>
    match escaped? c with
    | none => none
    | some c => stringRest? (read.map (c :: ·)) rest
  | c :: rest => if c.toNat < 0x20 then none else stringRest? (read.map (c :: ·)) rest

/-! ## Numbers -/

/-- Value of a run of decimal digits. -/
def digitsValue (digits : List Char) : Nat :=
  digits.foldl (fun n c => n * 10 + (c.toNat - '0'.toNat)) 0

/-- Reads an integer part: one zero, or digits of which the first is not zero. -/
def integerPart? (cs : List Char) : Option (List Char × List Char) :=
  match cs.takeWhile Char.isDigit with
  | [] => none
  | ['0'] => some (['0'], cs.drop 1)
  | '0' :: _ => none
  | digits => some (digits, cs.drop digits.length)

/-- Reads at least one digit. -/
def digits? (cs : List Char) : Option (List Char × List Char) :=
  match cs.takeWhile Char.isDigit with
  | [] => none
  | digits => some (digits, cs.drop digits.length)

/-- Reads a fraction, if a point follows. -/
def fraction? : List Char → Option (List Char × List Char)
  | '.' :: cs => (digits? cs).map fun (digits, rest) => ('.' :: digits, rest)
  | cs => some ([], cs)

/-- Reads the sign of an exponent, if there is one. -/
def exponentSign : List Char → List Char × List Char
  | '+' :: cs => (['+'], cs)
  | '-' :: cs => (['-'], cs)
  | cs => ([], cs)

/-- Reads an exponent, if its mark follows. -/
def exponent? : List Char → Option (List Char × List Char)
  | c :: cs =>
    if c = 'e' ∨ c = 'E' then
      let (sign, cs) := exponentSign cs
      (digits? cs).map fun (digits, rest) => (c :: sign ++ digits, rest)
    else some ([], c :: cs)
  | [] => some ([], [])

/-- Reads a minus sign, if there is one. -/
def minusSign : List Char → Bool × List Char
  | '-' :: cs => (true, cs)
  | cs => (false, cs)

/-- Reads a number. One with a fraction or an exponent is kept as it is written. -/
def number? (cs : List Char) : Option (Json × List Char) := do
  let (negative, digits) := minusSign cs
  let (whole, rest) ← integerPart? digits
  let (fraction, rest) ← fraction? rest
  let (exponent, rest) ← exponent? rest
  if fraction.isEmpty && exponent.isEmpty then
    some (.integer negative (digitsValue whole), rest)
  else some (.raw (consumed cs rest), rest)

/-! ## Values -/

/-- Reads the items of an array and its closing bracket. `bound` limits their number. -/
def itemsRest? (item : List Char → Option (Json × List Char)) :
    (bound : Nat) → (read : List Json) → List Char → Option (List Json × List Char)
  | 0, _, _ => none
  | bound + 1, read, cs => do
    let (value, rest) ← item cs
    match skip rest with
    | ',' :: rest => itemsRest? item bound (value :: read) rest
    | ']' :: rest => some ((value :: read).reverse, rest)
    | _ => none

/-- Reads the members of an object and its closing brace. `bound` limits their number. There are no
members if one of the keys is no text. -/
def membersRest? (item : List Char → Option (Json × List Char)) :
    (bound : Nat) → (read : Option (List (String × Json))) → List Char →
    Option (Option (List (String × Json)) × List Char)
  | 0, _, _ => none
  | bound + 1, read, cs => do
    let '"' :: cs := skip cs | none
    let (key, cs) ← stringRest? (some []) cs
    let ':' :: cs := skip cs | none
    let (value, rest) ← item cs
    let read := do some ((← key, value) :: (← read))
    match skip rest with
    | ',' :: rest => membersRest? item bound read rest
    | '\x7d' :: rest => some (read.map List.reverse, rest)
    | _ => none

/-- Reads a value in which nothing is nested. -/
def scalar? : List Char → Option (Json × List Char)
  | 'n' :: 'u' :: 'l' :: 'l' :: rest => some (.null, rest)
  | 't' :: 'r' :: 'u' :: 'e' :: rest => some (.bool true, rest)
  | 'f' :: 'a' :: 'l' :: 's' :: 'e' :: rest => some (.bool false, rest)
  | '"' :: cs => do
    match ← stringRest? (some []) cs with
    | (some s, rest) => some (.string s, rest)
    | (none, rest) => some (.raw (consumed ('"' :: cs) rest), rest)
  | cs => number? cs

/-- Reads an array or object, however deep it stands. It is no value if one of its keys is no
text. -/
def nested? (item : List Char → Option (Json × List Char)) :
    List Char → Option (Option Json × List Char)
  | '[' :: cs =>
    match skip cs with
    | ']' :: rest => some (some (.array []), rest)
    | cs => do
      let (items, rest) ← itemsRest? item cs.length [] cs
      some (some (.array items), rest)
  | '\x7b' :: cs =>
    match skip cs with
    | '\x7d' :: rest => some (some (.object []), rest)
    | cs => do
      let (members, rest) ← membersRest? item cs.length (some []) cs
      some (members.map .object, rest)
  | _ => none

/-- Whether a text starts with an array or object. -/
def startsNested : List Char → Bool
  | '[' :: _ => true
  | '\x7b' :: _ => true
  | _ => false

/-- Reads a value, of which `nesting` levels of arrays and objects can be told apart. -/
def value? : (bound nesting : Nat) → List Char → Option (Json × List Char)
  | 0, _, _ => none
  | bound + 1, nesting, cs =>
    let cs := skip cs
    if startsNested cs then do
      let (value, rest) ← nested? (value? bound (nesting - 1)) cs
      match value with
      | some value => some (if nesting = 0 then .raw (consumed cs rest) else value, rest)
      | none => some (.raw (consumed cs rest), rest)
    else scalar? cs

/-- Reads a text that holds one value, with nothing but white space around it. -/
def parse? (text : String) : Option Json := do
  let cs := text.toList
  let (value, rest) ← value? (cs.length + 1) maxNesting cs
  if (skip rest).isEmpty then some value else none

end Json

end Assembler
