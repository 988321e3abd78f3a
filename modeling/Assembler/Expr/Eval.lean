import Assembler.Expr

/-!
# Evaluation

`Expr.eval` computes an expression at the cursor of a context. Addresses support few operations: an
address plus or minus a number is an address that moves with the same symbol, and the difference of
two addresses of one section is a number. Everything else is refused.
-/

namespace Assembler

namespace Value

/-- Applies an operator on one value. -/
def unary (op : UnaryOp) (v : Value) : Except EvalError Value :=
  if v.anchor.isSome && !op.keepsAnchor then .error (.illegalOperation op.symbol)
  else .ok ⟨op.compute v.constant, v.anchor⟩

/-- Sum of two values, of which one at most moves. -/
def add (l r : Value) : Except EvalError Value :=
  if l.anchor.isSome && r.anchor.isSome then .error (.illegalOperation BinaryOp.add.symbol)
  else .ok ⟨l.constant + r.constant, l.anchor.or r.anchor⟩

/-- Whether the address of a symbol is known in this assembly. -/
def isPlaced (symbols : SymbolTable) (id : SymbolId) : Bool :=
  match symbols.get? id with
  | some s => !s.isImport
  | none => false

/-- The section that a symbol is defined in. -/
def homeOf? (symbols : SymbolTable) (id : SymbolId) : Option SectionId :=
  (symbols.get? id).bind Symbol.home

/-- Distance between addresses that move with the symbols `a` and `b`. -/
def distance (symbols : SymbolTable) (constant : Word) (a b : SymbolId) :
    Except EvalError Value :=
  if !isPlaced symbols a then .error (.unresolvedSymbol (symbols.nameOf a))
  else if !isPlaced symbols b then .error (.unresolvedSymbol (symbols.nameOf b))
  else match homeOf? symbols a, homeOf? symbols b with
    | some s, some t =>
      if s = t then .ok (.absolute constant)
      else .error (.differentSections (symbols.nameOf a) (symbols.nameOf b))
    | _, _ => .error (.differentSections (symbols.nameOf a) (symbols.nameOf b))

/-- Difference of two values. -/
def sub (symbols : SymbolTable) (l r : Value) : Except EvalError Value :=
  let constant := l.constant - r.constant
  match l.anchor, r.anchor with
  | none, none => .ok (.absolute constant)
  | some anchor, none => .ok (.relative constant anchor)
  | none, some _ => .error (.illegalOperation BinaryOp.sub.symbol)
  | some (.unresolved identifier), some _ => .error (.unresolvedSymbol identifier)
  | some (.symbol _), some (.unresolved identifier) => .error (.unresolvedSymbol identifier)
  | some (.symbol a), some (.symbol b) => distance symbols constant a b

/-- Applies an operator on two values. -/
def binary (symbols : SymbolTable) (op : BinaryOp) (l r : Value) : Except EvalError Value :=
  match op with
  | .add => add l r
  | .sub => sub symbols l r
  | op =>
    if l.anchor.isSome || r.anchor.isSome then .error (.illegalOperation op.symbol)
    else match op.compute? l.constant r.constant with
      | some v => .ok (.absolute v)
      | none => .error .divisionByZero

end Value

namespace Context

/-- An address of the current section. It moves with the section's start symbol, if that is
defined. -/
def inSection (ctx : Context) (address : Word) : Value :=
  ⟨address, ctx.startSymbol?.map Anchor.symbol⟩

/-- Value of an identifier. -/
def valueOf (ctx : Context) (identifier : String) : Value :=
  match ctx.symbols.idOf? identifier with
  | none => .relative 0 (.unresolved identifier)
  | some id =>
    match ctx.symbols.get? id with
    | none => .relative 0 (.unresolved identifier)
    | some s => if s.isAbsolute then .absolute s.value else .relative s.value (.symbol id)

end Context

namespace Expr

/-- Value of an expression at the cursor of a context. The left operand fails first. -/
def eval (ctx : Context) : Expr → Except EvalError Value
  | .constant v => .ok (.absolute v)
  | .position => .ok (ctx.inSection ctx.address)
  | .sectionStart => .ok (ctx.inSection ctx.sectionStart)
  | .reference identifier => .ok (ctx.valueOf identifier)
  | .unary op e => do (← e.eval ctx).unary op
  | .binary op l r => do
    let l ← l.eval ctx
    let r ← r.eval ctx
    Value.binary ctx.symbols op l r
  | .function _ value => value ctx

end Expr

end Assembler
