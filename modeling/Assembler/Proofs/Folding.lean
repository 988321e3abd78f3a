import Assembler.Expr.Eval

/-!
# Constant folding

`Expr.literal` computes an expression by its operators alone, `Expr.eval` in a context, where sums
and differences take a way of their own because an address may be part of them. On an expression
made of constants the two agree (`Expr.eval_of_isConstant`): what has a literal value has that value
in every context, and what has none divides by zero in every context.

Main statement: `Expr.literal_agrees`.
-/

namespace Assembler

namespace Value

@[simp]
theorem unary_absolute (op : UnaryOp) (v : Word) :
    (absolute v).unary op = .ok (absolute (op.compute v)) := rfl

/-- On numbers, every operator does what it does on words. -/
theorem binary_absolute (symbols : SymbolTable) (op : BinaryOp) (a b : Word) :
    binary symbols op (absolute a) (absolute b) =
      match op.compute? a b with
      | some v => .ok (absolute v)
      | none => .error .divisionByZero := by
  cases op <;> rfl

end Value

namespace Expr

/-- Made of constants and operators: no part of the tree is the cursor, the start of the section, a
reference or a function node. -/
def IsConstant : Expr → Prop
  | .constant _ => True
  | .unary _ e => e.IsConstant
  | .binary _ l r => l.IsConstant ∧ r.IsConstant
  | .position => False
  | .sectionStart => False
  | .reference _ => False
  | .function _ _ => False

variable {e : Expr}

/-- What folds is made of constants. -/
theorem isConstant_of_literal {v : Word} (h : e.literal = some v) : e.IsConstant := by
  induction e generalizing v with
  | constant c => trivial
  | unary op e ih =>
    obtain ⟨w, hw, -⟩ := Option.map_eq_some_iff.1 h
    exact ih hw
  | binary op l r ihl ihr =>
    obtain ⟨a, ha, h⟩ := Option.bind_eq_some_iff.1 h
    obtain ⟨b, hb, -⟩ := Option.bind_eq_some_iff.1 h
    exact ⟨ihl ha, ihr hb⟩
  | position | sectionStart | reference | function => cases h

/-- An expression made of constants has its literal value, or divides by zero. -/
theorem eval_of_isConstant (h : e.IsConstant) (ctx : Context) :
    e.eval ctx =
      match e.literal with
      | some v => .ok (.absolute v)
      | none => .error .divisionByZero := by
  induction e with
  | constant c => rfl
  | unary op e ih =>
    rw [eval, ih h, literal]
    cases e.literal with
    | none => rfl
    | some v => exact Value.unary_absolute op v
  | binary op l r ihl ihr =>
    rw [eval, ihl h.1, ihr h.2, literal]
    -- the left operand fails first, with the error that the right one would have
    cases l.literal with
    | none => rfl
    | some a =>
      cases r.literal with
      | none => rfl
      | some b => exact Value.binary_absolute ctx.symbols op a b
  | position | sectionStart | reference | function => cases h

/-- What folds evaluates to its literal value wherever it stands. -/
theorem eval_of_literal {v : Word} (h : e.literal = some v) (ctx : Context) :
    e.eval ctx = .ok (.absolute v) := by
  rw [eval_of_isConstant (isConstant_of_literal h), h]

/-- Folding and evaluation agree. An expression folds to a number if and only if it is made of
constants and evaluates to that number, in whatever context. Of those made of constants, the ones
that do not fold are the ones that divide by zero. -/
theorem literal_agrees (e : Expr) (ctx : Context) :
    (∀ v, e.literal = some v ↔ e.IsConstant ∧ e.eval ctx = .ok (.absolute v)) ∧
      (e.IsConstant → (e.literal = none ↔ e.eval ctx = .error .divisionByZero)) := by
  refine ⟨fun v => ⟨fun h => ⟨isConstant_of_literal h, eval_of_literal h ctx⟩, ?_⟩, fun h => ?_⟩
  · rintro ⟨hconstant, heval⟩
    rw [eval_of_isConstant hconstant] at heval
    cases hliteral : e.literal with
    | none =>
      rw [hliteral] at heval
      cases heval
    | some w =>
      rw [hliteral] at heval
      cases heval
      rfl
  · rw [eval_of_isConstant h]
    cases e.literal <;> simp

/-- `(-1 // 2) - (7 %% 4)`: a difference, which goes the way of addresses, with the two operators
that round toward zero on either side. -/
def quotients : Expr :=
  .binary .sub (.binary .divS (.unary .negate (.constant 1)) (.constant 2))
    (.binary .modS (.constant 7) (.constant 4))

/-- The same with a divisor that comes to zero. -/
def zeroDivisor : Expr :=
  .binary .add quotients (.binary .divU (.constant 1) (.binary .sub (.constant 3) (.constant 3)))

theorem literal_agrees_quotients :
    quotients.eval (.new .bit32) = .ok (.absolute (-3)) ∧
      zeroDivisor.eval (.new .bit32) = .error .divisionByZero := by
  have hconstant : zeroDivisor.IsConstant := by simp [zeroDivisor, quotients, IsConstant]
  exact ⟨(((literal_agrees quotients (.new .bit32)).1 (-3)).1 (by decide)).2,
    ((literal_agrees zeroDivisor (.new .bit32)).2 hconstant).1 (by decide)⟩

end Expr

end Assembler
