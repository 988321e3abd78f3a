import Assembler.Expr
import Assembler.Word.Text

/-!
# Printed expressions

The text of an expression. An operand that is itself a binary expression stands in parentheses; no
other operand does.
-/

namespace Assembler

namespace Expr

/-- A number below ten in decimal, any other in hexadecimal. -/
def constantText (v : Word) : String :=
  if 0 ≤ v.toInt ∧ v.toInt < 10 then v.decimal else v.hex

/-- The text of an expression as an operand, given its text. -/
def parenthesized : Expr → String → String
  | .binary _ _ _, text => "(" ++ text ++ ")"
  | _, text => text

/-- The text of an operator with its operand. -/
def unaryText (op : UnaryOp) (operand : String) : String :=
  match op with
  | .increment => operand ++ " + 1"
  | .decrement => operand ++ " - 1"
  | op => op.symbol ++ operand

/-- The expression as it is written. -/
def text : Expr → String
  | .constant v => constantText v
  | .position => "$"
  | .sectionStart => "$$"
  | .reference identifier => identifier
  | .unary op e => unaryText op (e.parenthesized e.text)
  | .binary op l r => l.parenthesized l.text ++ " " ++ op.symbol ++ " " ++ r.parenthesized r.text
  | .function name _ => name ++ "(...)"

end Expr

end Assembler
