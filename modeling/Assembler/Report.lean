import Assembler.Json.Writer
import Assembler.ObjectFile

/-!
# Reports

The symbols and relocations of an object file as rows of text, to be printed in columns or as JSON.
-/

namespace Assembler

/-- A symbol in a report. -/
structure SymbolRow where
  name : String
  kind : String
  value : String
  /-- Name of the symbol's section, or what it has instead. -/
  location : String
deriving DecidableEq, Repr

/-- A relocation in a report. -/
structure RelocationRow where
  /-- Name of the field's section. -/
  home : String
  offset : String
  symbol : String
  kind : String
  addend : Word
  bits : Nat
deriving DecidableEq, Repr

/-- What an assembly tells a linker, or a reader. -/
structure Report where
  mode : String
  symbols : List SymbolRow
  relocations : List RelocationRow
deriving DecidableEq, Repr

namespace Report

/-- The visibility of a symbol in words. -/
def kindText : SymbolKind → String
  | .plain => "none"
  | .internal => "private"
  | .exported => "public"
  | .weak => "weak"
  | .imported => "extern"

/-- The kind of a relocation in words. -/
def relocationText : RelocationKind → String
  | .absolute => "abs"
  | .pcRelative => "pcrel"

/-- Name of a section, or its id if the object file lacks it. -/
def sectionName (sections : List Section) (id : SectionId) : String :=
  match sections[id]? with
  | some s => s.name
  | none => "#" ++ id.repr

/-- The row of a symbol. -/
def symbolRow (sections : List Section) (s : Symbol) : SymbolRow where
  name := s.identifier
  kind := kindText s.kind
  value := s.value.hexWidth 10
  location :=
    if s.isAbsolute then "abs"
    else match s.home with
      | some id => sectionName sections id
      | none => "extern"

/-- The row of a relocation. -/
def relocationRow (sections : List Section) (symbols : SymbolTable) (r : Relocation) :
    RelocationRow where
  home := sectionName sections r.home
  offset := r.offset.hexWidth 6
  symbol := ((symbols.get? r.target).map Symbol.identifier).getD ""
  kind := relocationText r.kind
  addend := r.addend
  bits := r.size.bits

/-- The report of an object file. -/
def ofObject (obj : ObjectFile) : Report where
  mode := obj.context.mode.text
  symbols := obj.context.symbols.symbols.map (symbolRow obj.sections)
  relocations :=
    obj.context.relocations.toList.map (relocationRow obj.sections obj.context.symbols)

/-! ## Text -/

/-- A line of the symbol listing, in columns. -/
def columns (name kind value location : String) : String :=
  padRight 24 name ++ " " ++ padRight 8 kind ++ " " ++ padRight 12 value ++ " " ++ location ++ "\n"

/-- A line of the relocation listing. -/
def relocationLine (r : RelocationRow) : String :=
  "  " ++ r.home ++ "+" ++ r.offset ++ " " ++ padRight 6 r.kind ++ " " ++ r.symbol
    ++ r.addend.signedDecimal ++ " (" ++ r.bits.repr ++ " bits)\n"

/-- The report in columns. Relocations are listed only if there are any. -/
def text (r : Report) : String :=
  "mode: " ++ r.mode ++ "\n" ++ columns "name" "kind" "value" "location"
    ++ String.join (r.symbols.map fun s => columns s.name s.kind s.value s.location)
    ++ if r.relocations.isEmpty then ""
      else "\nrelocations:\n" ++ String.join (r.relocations.map relocationLine)

/-! ## JSON -/

/-- The row as JSON. -/
def symbolJson (s : SymbolRow) : Json :=
  .object [
    ("name", .string s.name),
    ("kind", .string s.kind),
    ("value", .string s.value),
    ("location", .string s.location)]

/-- The row as JSON. -/
def relocationJson (r : RelocationRow) : Json :=
  .object [
    ("section", .string r.home),
    ("offset", .string r.offset),
    ("symbol", .string r.symbol),
    ("kind", .string r.kind),
    ("addend", .ofWord r.addend),
    ("bits", .ofNat r.bits)]

/-- The report as JSON. -/
def toJson (r : Report) : Json :=
  .object [
    ("mode", .string r.mode),
    ("symbols", .array (r.symbols.map symbolJson)),
    ("relocations", .array (r.relocations.map relocationJson))]

end Report

end Assembler
