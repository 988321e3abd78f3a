import Assembler.Item.Emit
import Assembler.Statement.Construct

/-!
# What both passes share

Both passes are runs of steps whose state survives a failure. A run of two steps succeeds when both
do, and fails where the first of them fails (`bind_eq_ok`, `bind_eq_error`); the equations of the
basic steps are simplification rules, so that a pass is taken apart without unfolding its monad.

A step changes the state as it goes along, so that one that fails may have changed it before.
`FailsCleanly` says that it has not: what can fail comes before what changes the state. That holds
of a value that is resolved and of a field that is settled (`Value.resolve_failsCleanly`,
`Field.settle_failsCleanly`).

Both passes move the cursor by the lengths of items. `advance_eq` says that the cursor depends on
the sum of the lengths only.
-/

namespace Assembler

/-! ## Steps -/

section Steps

variable {ε σ α β : Type}

theorem bind_apply (m : EStateM ε σ α) (f : α → EStateM ε σ β) (s : σ) :
    (m >>= f) s =
      match m s with
      | .ok a t => f a t
      | .error e t => .error e t := rfl

/-- Two steps succeed when the first does and the second does from there. -/
theorem bind_eq_ok {m : EStateM ε σ α} {f : α → EStateM ε σ β} {s t : σ} {b : β} :
    (m >>= f) s = .ok b t ↔ ∃ a u, m s = .ok a u ∧ f a u = .ok b t := by
  rw [bind_apply]
  cases hm : m s with
  | ok a u =>
    constructor
    · intro h
      exact ⟨a, u, rfl, h⟩
    · rintro ⟨a', u', hau, h⟩
      cases hau
      exact h
  | error e u => simp

/-- Two steps fail when the first does, or when the second does after it. -/
theorem bind_eq_error {m : EStateM ε σ α} {f : α → EStateM ε σ β} {s t : σ} {e : ε} :
    (m >>= f) s = .error e t ↔
      m s = .error e t ∨ ∃ a u, m s = .ok a u ∧ f a u = .error e t := by
  rw [bind_apply]
  cases hm : m s with
  | ok a u =>
    constructor
    · intro h
      exact .inr ⟨a, u, rfl, h⟩
    · rintro (h | ⟨a', u', hau, h⟩)
      · cases h
      · cases hau
        exact h
  | error e' u => simp

@[simp]
theorem pure_apply (a : α) (s : σ) : (pure a : EStateM ε σ α) s = .ok a s := rfl

@[simp]
theorem throw_apply (e : ε) (s : σ) : (throw e : EStateM ε σ α) s = .error e s := rfl

@[simp]
theorem get_apply (s : σ) : (get : EStateM ε σ σ) s = .ok s s := rfl

@[simp]
theorem set_apply (s t : σ) : (set t : EStateM ε σ PUnit) s = .ok ⟨⟩ t := rfl

@[simp]
theorem modify_apply (f : σ → σ) (s : σ) :
    (modify f : EStateM ε σ PUnit) s = .ok ⟨⟩ (f s) := rfl

@[simp]
theorem modifyGet_apply (f : σ → α × σ) (s : σ) :
    (modifyGet f : EStateM ε σ α) s = .ok (f s).1 (f s).2 := rfl

@[simp]
theorem ofExcept_ok (a : α) : (MonadExcept.ofExcept (.ok a) : EStateM ε σ α) = pure a := rfl

@[simp]
theorem ofExcept_error (e : ε) :
    (MonadExcept.ofExcept (.error e) : EStateM ε σ α) = throw e := rfl

theorem adaptExcept_apply {δ : Type} (wrap : ε → δ) (m : EStateM ε σ α) (s : σ) :
    m.adaptExcept wrap s =
      match m s with
      | .ok a t => .ok a t
      | .error e t => .error (wrap e) t := by
  show (match m s with
    | .error e t => .error (wrap e) t
    | .ok a t => .ok a t : EStateM.Result δ σ α) = _
  cases m s <;> rfl

/-- A computation that may fail, and then another: both succeed. -/
theorem exceptBind_eq_ok {x : Except ε α} {f : α → Except ε β} {b : β} :
    x >>= f = .ok b ↔ ∃ a, x = .ok a ∧ f a = .ok b := by
  cases x with
  | error e => simp [bind, Except.bind]
  | ok a => simp [bind, Except.bind]

/-- A computation that may fail, and then another: one of them fails. -/
theorem exceptBind_eq_error {x : Except ε α} {f : α → Except ε β} {e : ε} :
    x >>= f = .error e ↔ x = .error e ∨ ∃ a, x = .ok a ∧ f a = .error e := by
  cases x with
  | error e => simp [bind, Except.bind]
  | ok a => simp [bind, Except.bind]

theorem eq_ok_of_toOption {x : Except ε α} {a : α} (h : x.toOption = some a) : x = .ok a := by
  cases x with
  | error e => cases h
  | ok b =>
    cases h
    rfl

/-! ## What a step leaves -/

section StateAfter

variable {m : EStateM ε σ α} {f : α → EStateM ε σ β} {s t : σ} {a : α} {e : ε}

/-- The state that a step leaves, also if it fails. -/
def stateAfter (m : EStateM ε σ α) (s : σ) : σ :=
  match m s with
  | .ok _ t => t
  | .error _ t => t

theorem stateAfter_of_ok (h : m s = .ok a t) : stateAfter m s = t := by
  rw [stateAfter, h]

theorem stateAfter_of_error (h : m s = .error e t) : stateAfter m s = t := by
  rw [stateAfter, h]

theorem stateAfter_bind_of_ok (h : m s = .ok a t) :
    stateAfter (m >>= f) s = stateAfter (f a) t := by
  simp only [stateAfter, bind_apply, h]

theorem stateAfter_bind_of_error (h : m s = .error e t) : stateAfter (m >>= f) s = t :=
  stateAfter_of_error (bind_eq_error.2 (.inl h))

end StateAfter

/-! ## Steps that fail cleanly -/

/-- A step leaves the state as it was where it fails. -/
def FailsCleanly (m : EStateM ε σ α) : Prop := ∀ ⦃s e t⦄, m s = .error e t → t = s

/-- A step looks at the state and never changes it. -/
def OnlyReads (m : EStateM ε σ α) : Prop :=
  ∀ s, (∃ a, m s = .ok a s) ∨ ∃ e, m s = .error e s

/-- A step never fails. -/
def Succeeds (m : EStateM ε σ α) : Prop := ∀ s, ∃ a t, m s = .ok a t

variable {m : EStateM ε σ α} {f : α → EStateM ε σ β}

theorem onlyReads_get : OnlyReads (get : EStateM ε σ σ) := fun s => .inl ⟨s, rfl⟩

theorem onlyReads_pure (a : α) : OnlyReads (pure a : EStateM ε σ α) := fun _ => .inl ⟨a, rfl⟩

theorem onlyReads_throw (e : ε) : OnlyReads (throw e : EStateM ε σ α) := fun _ => .inr ⟨e, rfl⟩

theorem onlyReads_ofExcept (x : Except ε α) :
    OnlyReads (MonadExcept.ofExcept x : EStateM ε σ α) := by
  cases x with
  | ok a => exact onlyReads_pure a
  | error e => exact onlyReads_throw e

theorem succeeds_pure (a : α) : Succeeds (pure a : EStateM ε σ α) := fun s => ⟨a, s, rfl⟩

theorem succeeds_modify (f : σ → σ) : Succeeds (modify f : EStateM ε σ PUnit) :=
  fun s => ⟨⟨⟩, f s, rfl⟩

theorem succeeds_modifyGet (f : σ → α × σ) : Succeeds (modifyGet f : EStateM ε σ α) :=
  fun s => ⟨(f s).1, (f s).2, rfl⟩

theorem Succeeds.bind (hm : Succeeds m) (hf : ∀ a, Succeeds (f a)) : Succeeds (m >>= f) := by
  intro s
  obtain ⟨a, t, hm⟩ := hm s
  obtain ⟨b, u, hf⟩ := hf a t
  exact ⟨b, u, bind_eq_ok.2 ⟨a, t, hm, hf⟩⟩

theorem OnlyReads.failsCleanly (h : OnlyReads m) : FailsCleanly m := by
  intro s e t hm
  rcases h s with ⟨a, hok⟩ | ⟨_, herror⟩
  · rw [hok] at hm
    cases hm
  · rw [herror] at hm
    cases hm
    rfl

theorem Succeeds.failsCleanly (h : Succeeds m) : FailsCleanly m := by
  intro s e t hm
  obtain ⟨a, u, hok⟩ := h s
  rw [hok] at hm
  cases hm

/-- What only reads may come before a step that fails cleanly. -/
theorem OnlyReads.bind_failsCleanly (hm : OnlyReads m) (hf : ∀ a, FailsCleanly (f a)) :
    FailsCleanly (m >>= f) := by
  intro s e t h
  rcases bind_eq_error.1 h with h | ⟨a, u, hok, h⟩
  · exact hm.failsCleanly h
  · -- the first step succeeded, and so `u` is the state that it found
    rcases hm s with ⟨b, hb⟩ | ⟨_, herror⟩
    · rw [hb] at hok
      cases hok
      exact hf a h
    · rw [herror] at hok
      cases hok

/-- What never fails may come behind a step that fails cleanly. -/
theorem FailsCleanly.bind_succeeds (hm : FailsCleanly m) (hf : ∀ a, Succeeds (f a)) :
    FailsCleanly (m >>= f) := by
  intro s e t h
  rcases bind_eq_error.1 h with h | ⟨a, u, -, h⟩
  · exact hm h
  · obtain ⟨b, v, hok⟩ := hf a u
    rw [hok] at h
    cases h

/-- To wrap the error of a step does not change what the step leaves. -/
theorem FailsCleanly.adaptExcept {δ : Type} (hm : FailsCleanly m) (wrap : ε → δ) :
    FailsCleanly (m.adaptExcept wrap) := by
  intro s e t h
  rw [adaptExcept_apply] at h
  cases hrun : m s with
  | ok a u =>
    rw [hrun] at h
    cases h
  | error cause u =>
    rw [hrun] at h
    cases h
    exact hm hrun

end Steps

/-- What a value resolves to: itself, the import that it moves with, or the import that it
becomes. -/
theorem Value.resolve_apply (v : Value) (ctx : Context) :
    v.resolve ctx =
      match v.anchor with
      | none => .ok (.value v.constant) ctx
      | some (.symbol id) =>
        match ctx.symbols.get? id with
        | some s =>
          if s.isImport then .ok (.relocate id v.constant) ctx else .ok (.value v.constant) ctx
        | none => .error (.unresolvedSymbol ("#" ++ id.repr)) ctx
      | some (.unresolved identifier) =>
        .ok (.relocate (ctx.insert (.declare identifier .plain)).1 v.constant)
          (ctx.insert (.declare identifier .plain)).2 := by
  unfold resolve
  cases v.anchor with
  | none => rfl
  | some anchor =>
    cases anchor with
    | symbol id =>
      dsimp only
      rw [bind_apply, get_apply]
      dsimp only
      cases ctx.symbols.get? id with
      | none => rfl
      | some s =>
        dsimp only
        split <;> rfl
    | unresolved identifier => rfl

/-- A value is resolved, or nothing is done: the table is asked before it is changed. -/
theorem Value.resolve_failsCleanly (v : Value) : FailsCleanly v.resolve := by
  unfold resolve
  cases v.anchor with
  | none => exact (onlyReads_pure _).failsCleanly
  | some anchor =>
    cases anchor with
    | symbol id =>
      refine onlyReads_get.bind_failsCleanly fun ctx => ?_
      cases ctx.symbols.get? id with
      | none => exact (onlyReads_throw _).failsCleanly
      | some s =>
        dsimp only
        split <;> exact (onlyReads_pure _).failsCleanly
    | unresolved identifier =>
      exact ((succeeds_modifyGet _).bind fun _ => succeeds_pure _).failsCleanly

/-- A field is settled, or nothing is done: it is listed when it is evaluated and resolved. -/
theorem Field.settle_failsCleanly (f : Field) (address stop : Word) :
    FailsCleanly (f.settle address stop) := by
  refine onlyReads_get.bind_failsCleanly fun ctx => ?_
  refine (onlyReads_ofExcept _).bind_failsCleanly fun v => ?_
  refine v.resolve_failsCleanly.bind_succeeds fun resolved => ?_
  cases resolved <;> cases f.kind
  · exact succeeds_pure _
  · exact succeeds_pure _
  · exact (succeeds_modify _).bind fun _ => succeeds_pure _
  · exact (succeeds_modify _).bind fun _ => succeeds_pure _

/-- A list, cut before and after one of its members. -/
theorem eq_take_append_cons_drop {α : Type} {l : List α} {i : Nat} {a : α} (h : l[i]? = some a) :
    l = l.take i ++ a :: l.drop (i + 1) := by
  obtain ⟨hi, rfl⟩ := List.getElem?_eq_some_iff.1 h
  rw [← List.drop_eq_getElem_cons hi, List.take_append_drop]

/-! ## The cursor -/

/-- Number of bytes of items one after the other. -/
def totalLength : List Item → Nat
  | [] => 0
  | item :: items => item.length + totalLength items

@[simp]
theorem totalLength_nil : totalLength [] = 0 := rfl

@[simp]
theorem totalLength_cons (item : Item) (items : List Item) :
    totalLength (item :: items) = item.length + totalLength items := rfl

@[simp]
theorem totalLength_append (a b : List Item) :
    totalLength (a ++ b) = totalLength a + totalLength b := by
  induction a with
  | nil => simp
  | cons item a ih => rw [List.cons_append, totalLength_cons, ih, totalLength_cons, Nat.add_assoc]

/-- The lengths up to an item and its own are within the lengths of all. -/
theorem totalLength_take_add_le {items : List Item} {i : Nat} {item : Item}
    (h : items[i]? = some item) :
    totalLength (items.take i) + item.length ≤ totalLength items := by
  have hlen := congrArg totalLength (eq_take_append_cons_drop h)
  rw [totalLength_append, totalLength_cons] at hlen
  omega

/-- Every byte of items one after the other is a byte of one of them. -/
theorem exists_item_at {items : List Item} {offset : Nat} (h : offset < totalLength items) :
    ∃ i item, items[i]? = some item ∧ totalLength (items.take i) ≤ offset ∧
      offset < totalLength (items.take i) + item.length := by
  induction items generalizing offset with
  | nil => simp at h
  | cons first items ih =>
    -- a byte behind the first item is counted from the end of that item
    rcases Nat.lt_or_ge offset first.length with hfirst | hfirst
    · exact ⟨0, first, rfl, by simp, by simpa using hfirst⟩
    · rw [totalLength_cons] at h
      have hrest : offset - first.length < totalLength items := by omega
      obtain ⟨i, item, hi, hle, hlt⟩ := ih hrest
      refine ⟨i + 1, item, hi, ?_, ?_⟩
      · rw [List.take_succ_cons, totalLength_cons]
        omega
      · rw [List.take_succ_cons, totalLength_cons]
        omega

@[simp]
theorem advance_nil (address : Word) : advance address [] = address := rfl

theorem advance_cons (address : Word) (item : Item) (items : List Item) :
    advance address (item :: items) = advance (address + .ofNat item.length) items := rfl

theorem advance_append (address : Word) (a b : List Item) :
    advance address (a ++ b) = advance (advance address a) b := by
  simp [advance, List.foldl_append]

theorem Word.ofNat_add (m n : Nat) : Word.ofNat (m + n) = Word.ofNat m + Word.ofNat n :=
  BitVec.ofNat_add m n

/-- The cursor moves by the sum of the lengths. -/
theorem advance_eq (address : Word) (items : List Item) :
    advance address items = address + .ofNat (totalLength items) := by
  induction items generalizing address with
  | nil => simp [Word.ofNat]
  | cons item items ih =>
    rw [advance_cons, ih, totalLength_cons, Word.ofNat_add, BitVec.add_assoc]

end Assembler
