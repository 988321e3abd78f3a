import Assembler.Json
import Assembler.Word.Text

/-!
# Writing JSON text

Two layouts of a value: `compact` without any white space, and `pretty` with one item or member a
line, indented by two spaces a level. Both write strings the same way: the quote, the backslash and
the control characters are escaped, everything else stands for itself.
-/

namespace Assembler

namespace Json

/-- A control character as four hexadecimal digits after its mark. -/
def unicodeEscape (c : Char) : String :=
  let digits := hexDigits c.toNat
  "\\u" ++ String.ofList (List.replicate (4 - digits.length) '0') ++ digits

/-- A character as it stands between quotes. -/
def escape (c : Char) : String :=
  match c with
  | '"' => "\\\""
  | '\\' => "\\\\"
  | '\x08' => "\\b"
  | '\x0c' => "\\f"
  | '\n' => "\\n"
  | '\r' => "\\r"
  | '\t' => "\\t"
  | c => if c.toNat < 0x20 then unicodeEscape c else c.toString

/-- A text in quotes. -/
def quote (s : String) : String := "\"" ++ String.join (s.toList.map escape) ++ "\""

/-- An integer as it is written, with its sign. -/
def integerText (negative : Bool) (magnitude : Nat) : String :=
  (if negative then "-" else "") ++ magnitude.repr

mutual

/-- The value without white space. -/
def compact : Json → String
  | .null => "null"
  | .bool true => "true"
  | .bool false => "false"
  | .integer negative magnitude => integerText negative magnitude
  | .raw text => text
  | .string s => quote s
  | .array items => "[" ++ String.intercalate "," (compactItems items) ++ "]"
  | .object members => "\x7b" ++ String.intercalate "," (compactMembers members) ++ "\x7d"

/-- The items of an array, each without white space. -/
def compactItems : List Json → List String
  | [] => []
  | j :: rest => compact j :: compactItems rest

/-- The members of an object, each without white space. -/
def compactMembers : List (String × Json) → List String
  | [] => []
  | (key, j) :: rest => (quote key ++ ":" ++ compact j) :: compactMembers rest

end

/-- A new line, and the indentation of the given level. -/
def newline (level : Nat) : String := "\n" ++ String.ofList (List.replicate (2 * level) ' ')

/-- Lines of one level between an opening and a closing mark. -/
def block (level : Nat) (opening closing : String) (lines : List String) : String :=
  if lines.isEmpty then opening ++ closing
  else
    opening ++ newline (level + 1) ++ String.intercalate ("," ++ newline (level + 1)) lines
      ++ newline level ++ closing

mutual

/-- The value on several lines, its first line standing at the given level. -/
def prettyAt (level : Nat) : Json → String
  | .array items => block level "[" "]" (prettyItems (level + 1) items)
  | .object members => block level "\x7b" "\x7d" (prettyMembers (level + 1) members)
  | .null => "null"
  | .bool true => "true"
  | .bool false => "false"
  | .integer negative magnitude => integerText negative magnitude
  | .raw text => text
  | .string s => quote s

/-- The items of an array, each on lines of its own. -/
def prettyItems (level : Nat) : List Json → List String
  | [] => []
  | j :: rest => prettyAt level j :: prettyItems level rest

/-- The members of an object, each on lines of its own. -/
def prettyMembers (level : Nat) : List (String × Json) → List String
  | [] => []
  | (key, j) :: rest => (quote key ++ ": " ++ prettyAt level j) :: prettyMembers level rest

end

/-- The value on several lines. -/
def pretty (j : Json) : String := prettyAt 0 j

end Json

end Assembler
