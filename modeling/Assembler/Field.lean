import Assembler.Expr

/-!
# Fields

Bytes whose value is an expression, to be computed when they are written. A field says which numbers
its bytes stand for: signed distances, numbers that the processor sign-extends, or plain numbers
that are read either way.
-/

namespace Assembler

/-- What the number in a field counts from. -/
inductive FieldKind
  | absolute
  /-- The end of the instruction or datum that the field is part of. -/
  | relative
deriving DecidableEq, Repr

/-- Bytes with an expression for their value. -/
structure Field where
  expr : Expr
  size : DataSize
  kind : FieldKind
  /-- The width that the processor sign-extends the field to. -/
  extendsTo : Option DataSize
  /-- Position of the operand that the field came from. -/
  operand : Option Nat

namespace Field

/-- A plain number. -/
def absolute (expr : Expr) (size : DataSize) : Field := ⟨expr, size, .absolute, none, none⟩

/-- A distance. -/
def relative (expr : Expr) (size : DataSize) : Field := ⟨expr, size, .relative, none, none⟩

/-- The field as a number that the processor sign-extends. -/
def signExtended (f : Field) (width : DataSize) : Field := { f with extendsTo := some width }

/-- The field as part of an operand. -/
def ofOperand (f : Field) (index : Nat) : Field := { f with operand := some index }

/-- Whether the bytes of the field can stand for `value`. -/
def accepts (f : Field) (value : Word) : Bool :=
  match f.kind, f.extendsTo with
  | .relative, _ => value.fitsSigned f.size
  | .absolute, some width => value.fitsExtended f.size width
  | .absolute, none => value.fitsEither f.size

end Field

end Assembler
