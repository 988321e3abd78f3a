import Assembler.Expr.Eval
import Assembler.Proofs.Phrases

/-!
# What a printed expression means

A phrase is read from the left (`Phrase.eval`): a link `+ 1` or `- 1` is a step from what stands
before it, and any other operator takes all that follows it as its right operand. An expression
that prints without a trap, `Expr.isLegible`, means what its phrase does (`Expr.eval_phrase`).

There are two traps. A step under a minus sign, a complement or a logical negation is printed behind
the whole, where it reads as a step from the result. Steps from the number one that are subtracted
are printed behind the difference, where they read as steps from it.

Main statement: `Expr.text_determines_value`.
-/

namespace Assembler

/-! ## Reading a phrase -/

/-- An operator on two results. The left one fails first. -/
def combine (ctx : Context) (op : BinaryOp) (l r : Except EvalError Value) :
    Except EvalError Value := do
  let l ← l
  let r ← r
  Value.binary ctx.symbols op l r

/-- Addition and subtraction. -/
def BinaryOp.isSum : BinaryOp → Bool
  | .add | .sub => true
  | _ => false

def Segment.isOne : Segment → Bool
  | .atom (.decimal 1) => true
  | _ => false

def Atom.value (ctx : Context) : Atom → Value
  | .decimal n | .hexadecimal n => .absolute (BitVec.ofNat 128 n)
  | .position => ctx.inSection ctx.address
  | .sectionStart => ctx.inSection ctx.sectionStart
  | .name identifier => ctx.valueOf identifier

mutual

def Segment.eval (ctx : Context) : Segment → Except EvalError Value
  | .atom a => .ok (a.value ctx)
  | .prefixed op s => do (← s.eval ctx).unary op
  | .parens first links => links.evalFrom ctx (first.eval ctx)

/-- What the links make of the result before them. -/
def Links.evalFrom (ctx : Context) : Links → Except EvalError Value → Except EvalError Value
  | .nil, start => start
  | .cons op s rest, start =>
    if op.isSum && s.isOne then rest.evalFrom ctx (combine ctx op start (s.eval ctx))
    else combine ctx op start (rest.evalFrom ctx (s.eval ctx))

end

/-- The value that a reader of the phrase arrives at. -/
def Phrase.eval (ctx : Context) (p : Phrase) : Except EvalError Value :=
  p.links.evalFrom ctx (p.first.eval ctx)

/-! ## Steps -/

/-- Every link is a step. -/
def Links.isSteps : Links → Bool
  | .nil => true
  | .cons op s rest => op.isSum && s.isOne && rest.isSteps

theorem UnaryOp.isSum_of_step? {op : UnaryOp} {link : BinaryOp} (h : op.step? = some link) :
    link.isSum := by
  cases op <;> cases h <;> rfl

namespace Value

theorem unary_identity (v : Value) : v.unary .identity = .ok v := by
  simp [unary, UnaryOp.keepsAnchor, UnaryOp.compute]

theorem combine_add_absolute (ctx : Context) (v : Value) (c : Word) :
    combine ctx .add (.ok v) (.ok (absolute c)) = .ok ⟨v.constant + c, v.anchor⟩ := by
  change add v (absolute c) = _
  simp [add, absolute]

theorem combine_sub_absolute (ctx : Context) (v : Value) (c : Word) :
    combine ctx .sub (.ok v) (.ok (absolute c)) = .ok ⟨v.constant - c, v.anchor⟩ := by
  obtain ⟨constant, anchor⟩ := v
  cases anchor <;> rfl

/-- A step is the operator of its link, applied to one. -/
theorem combine_one_of_step? {op : UnaryOp} {link : BinaryOp} (h : op.step? = some link)
    (ctx : Context) (v : Value) :
    combine ctx link (.ok v) (.ok (absolute 1)) = v.unary op := by
  cases op with
  | increment =>
    cases h
    rw [combine_add_absolute]
    simp [unary, UnaryOp.keepsAnchor, UnaryOp.compute]
  | decrement =>
    cases h
    rw [combine_sub_absolute]
    simp [unary, UnaryOp.keepsAnchor, UnaryOp.compute]
  | _ => cases h

/-- A step from a number that is added to a value is a step from the sum. -/
theorem exists_combine_add (ctx : Context) {op : BinaryOp} (h : op.isSum) (c : Word) :
    ∃ d, combine ctx op (.ok (absolute c)) (.ok (absolute 1)) = .ok (absolute d) ∧
      ∀ start, combine ctx op (combine ctx .add start (.ok (absolute c))) (.ok (absolute 1)) =
        combine ctx .add start (.ok (absolute d)) := by
  cases op with
  | add =>
    refine ⟨c + 1, rfl, fun start => ?_⟩
    rcases start with cause | ⟨constant, anchor⟩
    · rfl
    · rw [combine_add_absolute, combine_add_absolute, combine_add_absolute, BitVec.add_assoc]
  | sub =>
    refine ⟨c - 1, rfl, fun start => ?_⟩
    rcases start with cause | ⟨constant, anchor⟩
    · rfl
    · rw [combine_add_absolute, combine_add_absolute, combine_sub_absolute,
        BitVec.sub_eq_add_neg, BitVec.sub_eq_add_neg, BitVec.add_assoc]
  | _ => cases h

end Value

namespace Segment

theorem eval_of_isOne {s : Segment} (h : s.isOne) (ctx : Context) :
    s.eval ctx = .ok (.absolute 1) := by
  unfold isOne at h
  split at h
  · rfl
  · cases h

end Segment

namespace Links

variable {ctx : Context}

theorem isSteps_append (links after : Links) :
    (links.append after).isSteps = (links.isSteps && after.isSteps) :=
  match links with
  | nil => by simp [append, isSteps]
  | cons op s rest => by simp [append, isSteps, isSteps_append rest, Bool.and_assoc]

/-- Behind steps, links start from what the steps lead to. -/
theorem evalFrom_append (links after : Links) (h : links.isSteps) (start : Except EvalError Value) :
    (links.append after).evalFrom ctx start = after.evalFrom ctx (links.evalFrom ctx start) :=
  match links with
  | nil => by simp [append, evalFrom]
  | cons op s rest => by
    simp only [isSteps, Bool.and_eq_true] at h
    simp only [append, evalFrom, h, Bool.and_self, if_true]
    exact evalFrom_append rest after h.2 _

/-- Steps from the right operand of a sum are steps from the sum. -/
theorem evalFrom_combine_add (links : Links) (h : links.isSteps) (start : Except EvalError Value)
    (c : Word) :
    links.evalFrom ctx (combine ctx .add start (.ok (.absolute c))) =
      combine ctx .add start (links.evalFrom ctx (.ok (.absolute c))) :=
  match links with
  | nil => by simp [evalFrom]
  | cons op s rest => by
    simp only [isSteps, Bool.and_eq_true] at h
    obtain ⟨d, hstep, hsum⟩ := Value.exists_combine_add ctx h.1.1 c
    simp only [evalFrom, h, Bool.and_self, if_true, Segment.eval_of_isOne h.1.2, hstep, hsum]
    exact evalFrom_combine_add rest h.2 start d

end Links

/-! ## Legible expressions -/

namespace Expr

/-- Whether steps are what the expression ends in on paper. -/
def endsInStep : Expr → Bool
  | .unary op e => op.step?.isSome || e.endsInStep
  | _ => false

/-- Whether the expression is the number one, perhaps with steps from it. -/
def startsWithOne : Expr → Bool
  | .constant v => v == 1
  | .unary op e => op.step?.isSome && e.startsWithOne
  | _ => false

/-- Whether all steps are printed where they read as what they are: no operator that refuses
addresses stands in front of a segment with steps behind it, and no step from the number one is
subtracted. -/
def isLegible : Expr → Bool
  | .unary op e => e.isLegible && (op.keepsAnchor || !e.endsInStep)
  | .binary op l r =>
    l.isLegible && r.isLegible && (op != .sub || !(r.startsWithOne && r.endsInStep))
  | _ => true

/-- The segment of a constant has its value, also where the constant is negative. -/
theorem eval_constantSegment (v : Word) (ctx : Context) :
    (constantSegment v).eval ctx = .ok (.absolute v) := by
  have hofInt : BitVec.ofInt 128 v.toInt = v := BitVec.ofInt_toInt
  unfold constantSegment
  split
  next hneg =>
    have hv : -BitVec.ofNat 128 v.toInt.natAbs = v := by
      rw [← BitVec.ofInt_natCast, ← BitVec.ofInt_neg,
        Int.ofNat_natAbs_of_nonpos (Int.le_of_lt hneg), Int.neg_neg, hofInt]
    change Value.unary .negate (.absolute (BitVec.ofNat 128 v.toInt.natAbs)) = _
    simp [Value.unary, Value.absolute, UnaryOp.compute, hv]
  next hpos =>
    have hv : BitVec.ofNat 128 v.toInt.natAbs = v := by
      rw [← BitVec.ofInt_natCast, Int.natAbs_of_nonneg (Int.not_lt.1 hpos), hofInt]
    split <;> simp only [Segment.eval, Atom.value, hv]

theorem operand_unary (op : UnaryOp) (e : Expr) :
    (unary op e).operand = e.operand.unary op := rfl

/-- An operand has nothing but steps behind its first segment. -/
theorem isSteps_operand (e : Expr) : e.operand.links.isSteps := by
  induction e with
  | unary op e ih =>
    rw [operand_unary]
    cases hop : op.step? with
    | some link =>
      have hsum : link.isSum := UnaryOp.isSum_of_step? hop
      rw [Phrase.unary_of_some hop, Phrase.join, Links.isSteps_append, ih, Bool.true_and]
      simp [Phrase.one, Links.isSteps, Segment.isOne, hsum]
    | none =>
      rw [Phrase.unary_of_none hop]
      exact ih
  | _ => rfl

theorem links_operand {e : Expr} (h : e.endsInStep = false) : e.operand.links = .nil := by
  induction e with
  | unary op e ih =>
    obtain ⟨hop, he⟩ := Bool.or_eq_false_iff.1 h
    rw [operand_unary, Phrase.unary_of_none (Option.not_isSome_iff_eq_none.1 (by simp [hop]))]
    exact ih he
  | _ => rfl

/-- An operand that is written as a one is the number one. -/
theorem startsWithOne_of_isOne {e : Expr} (h : e.operand.first.isOne) : e.startsWithOne := by
  induction e with
  | unary op e ih =>
    rw [operand_unary] at h
    cases hop : op.step? with
    | some link =>
      rw [Phrase.unary_of_some hop] at h
      simp [startsWithOne, hop, ih h]
    | none =>
      rw [Phrase.unary_of_none hop] at h
      cases h
  | constant v =>
    have hv := Segment.eval_of_isOne h (Context.new .bit32)
    obtain rfl : v = 1 := by
      have heval := (eval_constantSegment v _).symm.trans hv
      simpa [Value.absolute] using heval
    rfl
  | _ => cases h

/-- Parentheses change nothing. -/
theorem eval_operand (e : Expr) (ctx : Context) : e.operand.eval ctx = e.phrase.eval ctx := by
  cases e <;> rfl

/-- An operator in front of a legible operand is applied to the whole of it. -/
theorem eval_unary_of_none {op : UnaryOp} {e : Expr} (hop : op.step? = none)
    (he : op.keepsAnchor || !e.endsInStep) (ctx : Context) :
    (e.operand.unary op).eval ctx = (do (← e.operand.eval ctx).unary op) := by
  rw [Phrase.unary_of_none hop]
  rcases Bool.or_eq_true_iff.1 he with hkeeps | hstep
  · -- of the operators in front only the plus sign keeps addresses, and it changes nothing
    obtain rfl : op = .identity := by
      cases op <;> simp_all [UnaryOp.step?, UnaryOp.keepsAnchor]
    have hsame : ∀ result : Except EvalError Value, (do (← result).unary .identity) = result := by
      intro result
      cases result with
      | error cause => rfl
      | ok v => exact v.unary_identity
    rw [hsame, Phrase.eval, Segment.eval, hsame, Phrase.eval]
  · have hlinks : e.operand.links = .nil := links_operand (by simpa using hstep)
    simp only [Phrase.eval, hlinks, Links.evalFrom, Segment.eval]

/-- An operator between legible operands takes the whole of both. -/
theorem eval_join (op : BinaryOp) {l r : Expr}
    (h : op != .sub || !(r.startsWithOne && r.endsInStep)) (ctx : Context) :
    (l.operand.join op r.operand).eval ctx =
      combine ctx op (l.operand.eval ctx) (r.operand.eval ctx) := by
  rw [Phrase.join, Phrase.eval, Links.evalFrom_append _ _ l.isSteps_operand, ← Phrase.eval,
    Links.evalFrom]
  split
  next hlink =>
    obtain ⟨hsum, hone⟩ := Bool.and_eq_true_iff.1 hlink
    rw [Segment.eval_of_isOne hone]
    cases op with
    | add =>
      -- the links of the right operand are all steps, so they go on from the sum
      rw [Links.evalFrom_combine_add _ r.isSteps_operand, ← Segment.eval_of_isOne hone,
        ← Phrase.eval]
    | sub =>
      have hstep : r.endsInStep = false := by simpa [startsWithOne_of_isOne hone] using h
      simp only [Phrase.eval, links_operand hstep, Links.evalFrom, Segment.eval_of_isOne hone]
    | _ => cases hsum
  · rfl

/-- A legible expression has the value that its phrase reads as. -/
theorem eval_phrase {e : Expr} (he : e.isLegible) (hfree : e.IsFunctionFree) (ctx : Context) :
    e.phrase.eval ctx = e.eval ctx := by
  induction e with
  | constant v => exact eval_constantSegment v ctx
  | position | sectionStart | reference => rfl
  | unary op e ih =>
    simp only [isLegible, Bool.and_eq_true] at he
    have hoperand := (eval_operand e ctx).trans (ih he.1 hfree)
    cases hop : op.step? with
    | some link =>
      have hjoin : (e.operand.join link Phrase.one).eval ctx =
          combine ctx link (e.operand.eval ctx) (.ok (.absolute 1)) :=
        eval_join link (r := .constant 1) (by simp [endsInStep]) ctx
      rw [phrase, ← operand, Phrase.unary_of_some hop, hjoin, hoperand, eval]
      cases e.eval ctx with
      | error cause => rfl
      | ok v => exact Value.combine_one_of_step? hop ctx v
    | none =>
      exact (eval_unary_of_none hop he.2 ctx).trans (by rw [hoperand]; rfl)
  | binary op l r ihl ihr =>
    simp only [isLegible, Bool.and_eq_true] at he
    have hl := (eval_operand l ctx).trans (ihl he.1.1 hfree.1)
    have hr := (eval_operand r ctx).trans (ihr he.1.2 hfree.2)
    exact (eval_join op he.2 ctx).trans (by rw [hl, hr]; rfl)
  | function name value => cases hfree

/-! ## Text and value -/

/-- The text of an expression tells which phrase it is written as, and nothing else of the tree. For
legible expressions that is enough: those that print alike have the same value, or fail for the same
cause, in every context. -/
theorem text_determines_value {e e' : Expr} (hfree : e.IsFunctionFree) (hfree' : e'.IsFunctionFree)
    (hnames : ∀ name ∈ e.references, isPlainName name)
    (hnames' : ∀ name ∈ e'.references, isPlainName name) :
    (e.text = e'.text ↔ e.phrase = e'.phrase) ∧
      (e.isLegible → e'.isLegible → e.text = e'.text → ∀ ctx, e.eval ctx = e'.eval ctx) := by
  have hphrase := text_eq_iff hfree hfree' hnames hnames'
  refine ⟨hphrase, fun he he' htext ctx => ?_⟩
  rw [← eval_phrase he hfree, ← eval_phrase he' hfree', hphrase.1 htext]

/-- `(x.1 - 1 + 1 + 1) * -0x10`, where two steps are added and the factor is a number. -/
def addedSteps : Expr :=
  .binary .mul
    (.binary .add (.unary .decrement (.reference "x.1")) (.unary .increment (.constant 1)))
    (.constant (-16))

/-- `(x.1 - 1 + 1 + 1) * -0x10`, where one is added to a step and the factor is negated. -/
def addedOne : Expr :=
  .binary .mul
    (.binary .add (.unary .increment (.unary .decrement (.reference "x.1"))) (.constant 1))
    (.unary .negate (.constant 16))

/-- The two expressions have one text, and one value. -/
theorem text_determines_value_steps :
    addedSteps.IsFunctionFree ∧ addedOne.IsFunctionFree ∧
      (∀ name ∈ addedSteps.references, isPlainName name) ∧
      (∀ name ∈ addedOne.references, isPlainName name) ∧
      addedSteps.isLegible ∧ addedOne.isLegible ∧ addedSteps.text = addedOne.text ∧
      ∀ ctx, addedSteps.eval ctx = addedOne.eval ctx := by
  have hfree : addedSteps.IsFunctionFree := by simp [addedSteps, IsFunctionFree]
  have hfree' : addedOne.IsFunctionFree := by simp [addedOne, IsFunctionFree]
  have hnames : ∀ name ∈ addedSteps.references, isPlainName name := by decide
  have hnames' : ∀ name ∈ addedOne.references, isPlainName name := by decide
  obtain ⟨hphrase, hvalue⟩ := text_determines_value hfree hfree' hnames hnames'
  have htext : addedSteps.text = addedOne.text := hphrase.2 rfl
  exact ⟨hfree, hfree', hnames, hnames', rfl, rfl, htext, hvalue rfl rfl htext⟩

/-- An operator in front of a step is written as a step from its result. -/
theorem phrase_unary_step {op step : UnaryOp} (hop : op.step? = none) (hstep : step.step?.isSome)
    (e : Expr) : (unary op (unary step e)).phrase = (unary step (unary op e)).phrase := by
  obtain ⟨link, hlink⟩ := Option.isSome_iff_exists.1 hstep
  change (e.operand.unary step).unary op = (e.operand.unary op).unary step
  simp only [Phrase.unary_of_none hop, Phrase.unary_of_some hlink, Phrase.join]

/-- A step from one that is subtracted is written as a step from the difference. -/
theorem phrase_sub_step {step : UnaryOp} (hstep : step.step?.isSome) (l : Expr) :
    (binary .sub l (unary step (constant 1))).phrase =
      (unary step (unary .decrement l)).phrase := by
  obtain ⟨link, hlink⟩ := Option.isSome_iff_exists.1 hstep
  change l.operand.join .sub (Phrase.one.unary step) = (l.operand.join .sub .one).unary step
  simp only [Phrase.unary_of_some hlink, Phrase.join, Links.append_assoc]
  rfl

/-- `~5 + 1` is printed for the complement of an increment and for the increment of a complement,
and `9 - 1 + 1` for a difference and for two steps; their values differ. -/
theorem text_hides_steps :
    ((unary .complement (unary .increment (constant 5))).text =
        (unary .increment (unary .complement (constant 5))).text ∧
      (unary .complement (unary .increment (constant 5))).eval (.new .bit32) =
        .ok (.absolute (-7)) ∧
      (unary .increment (unary .complement (constant 5))).eval (.new .bit32) =
        .ok (.absolute (-5))) ∧
    ((binary .sub (constant 9) (unary .increment (constant 1))).text =
        (unary .increment (unary .decrement (constant 9))).text ∧
      (binary .sub (constant 9) (unary .increment (constant 1))).eval (.new .bit32) =
        .ok (.absolute 7) ∧
      (unary .increment (unary .decrement (constant 9))).eval (.new .bit32) =
        .ok (.absolute 9)) :=
  ⟨⟨text_eq_of_phrase_eq (phrase_unary_step rfl rfl _), rfl, rfl⟩,
    ⟨text_eq_of_phrase_eq (phrase_sub_step rfl _), rfl, rfl⟩⟩

end Expr

end Assembler
