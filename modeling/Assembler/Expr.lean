import Assembler.Context

/-!
# Expressions

Symbolic expressions over constants, the cursor and identifiers. A function node stands for a
computation that the tree does not spell out; it sees the context and must not change it.

`Expr.literal` folds an expression that is made of constants only.
-/

namespace Assembler

/-- Operators on one value. -/
inductive UnaryOp
  | negate
  | identity
  | increment
  | decrement
  | complement
  | logicalNot
deriving DecidableEq, Repr

/-- Operators on two values. -/
inductive BinaryOp
  | or
  | xor
  | and
  | shl
  | shr
  | add
  | sub
  | mul
  | divU
  | divS
  | modU
  | modS
deriving DecidableEq, Repr

/-- A symbolic expression. -/
inductive Expr
  | constant (value : Word)
  /-- The cursor. -/
  | position
  /-- The start of the current section. -/
  | sectionStart
  | reference (identifier : String)
  | unary (op : UnaryOp) (operand : Expr)
  | binary (op : BinaryOp) (left right : Expr)
  | function (name : String) (value : Context → Except EvalError Value)

namespace UnaryOp

/-- Spelling of the operator. -/
def symbol : UnaryOp → String
  | .negate => "-"
  | .identity => "+"
  | .increment => "++"
  | .decrement => "--"
  | .complement => "~"
  | .logicalNot => "!"

/-- Whether the operator keeps an address an address, moving with the same symbol. -/
def keepsAnchor : UnaryOp → Bool
  | .identity => true
  | .increment => true
  | .decrement => true
  | _ => false

/-- The operator on words. -/
def compute : UnaryOp → Word → Word
  | .negate, v => -v
  | .identity, v => v
  | .increment, v => v + 1
  | .decrement, v => v - 1
  | .complement, v => ~~~v
  | .logicalNot, v => if v = 0 then 1 else 0

end UnaryOp

namespace BinaryOp

/-- Spelling of the operator. -/
def symbol : BinaryOp → String
  | .or => "|"
  | .xor => "^"
  | .and => "&"
  | .shl => "<<"
  | .shr => ">>"
  | .add => "+"
  | .sub => "-"
  | .mul => "*"
  | .divU => "/"
  | .divS => "//"
  | .modU => "%"
  | .modS => "%%"

/-- The operator on words. Only division by zero has no result. -/
def compute? : BinaryOp → Word → Word → Option Word
  | .or, a, b => some (a ||| b)
  | .xor, a, b => some (a ^^^ b)
  | .and, a, b => some (a &&& b)
  | .shl, a, b => some (a.shiftLeft b)
  | .shr, a, b => some (a.shiftRight b)
  | .add, a, b => some (a + b)
  | .sub, a, b => some (a - b)
  | .mul, a, b => some (a * b)
  | .divU, a, b => a.divUnsigned? b
  | .divS, a, b => a.divSigned? b
  | .modU, a, b => a.remUnsigned? b
  | .modS, a, b => a.remSigned? b

end BinaryOp

namespace Expr

instance : Inhabited Expr := ⟨.constant 0⟩

/-- Value of an expression that is made of constants only and divides by no zero. -/
def literal : Expr → Option Word
  | .constant v => some v
  | .unary op e => e.literal.map op.compute
  | .binary op l r => do op.compute? (← l.literal) (← r.literal)
  | _ => none

/-- The tree is spelled out: no part of it is a function node. -/
def IsFunctionFree : Expr → Prop
  | .unary _ e => e.IsFunctionFree
  | .binary _ l r => l.IsFunctionFree ∧ r.IsFunctionFree
  | .function _ _ => False
  | _ => True

end Expr

end Assembler
