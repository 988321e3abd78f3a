import Assembler.Proofs.Immediates
import Assembler.Proofs.Truncation

/-!
# Literal data

A declared value that is a literal becomes bytes in the first pass; every other value becomes a
field for the second. A literal could go the way of the others (`Item.deferred`), and it makes no
difference whether it does: the second pass writes the deferred field as it writes the bytes, or
fails on it as the declaration does (`Item.emit_deferred`).

Main statement: `DataDeclaration.literals_agree`.
-/

namespace Assembler

/-! ## Lists of computations that may fail -/

section Traversal

variable {ε α β : Type} {f : α → Except ε β} {l : List α}

/-- A traversal succeeds when every member does, and keeps the places of the results. -/
theorem mapM_eq_ok_iff {r : List β} :
    l.mapM f = .ok r ↔ l.length = r.length ∧
      ∀ (k : Nat) a b, l[k]? = some a → r[k]? = some b → f a = .ok b := by
  induction l generalizing r with
  | nil => cases r <;> simp [pure, Except.pure]
  | cons x l ih =>
    simp only [List.mapM_cons, exceptBind_eq_ok, ih]
    constructor
    · rintro ⟨y, hy, r, ⟨hlength, hrest⟩, hr⟩
      cases hr
      refine ⟨by simp [hlength], fun k a b ha hb => ?_⟩
      cases k with
      | zero =>
        cases ha
        cases hb
        exact hy
      | succ k => exact hrest k a b ha hb
    · rintro ⟨hlength, hall⟩
      cases r with
      | nil => cases hlength
      | cons y r =>
        exact ⟨y, hall 0 x y rfl rfl, r, ⟨Nat.succ.inj hlength, fun k => hall (k + 1)⟩, rfl⟩

/-- A traversal fails where the first of its members does. -/
theorem mapM_eq_error_iff {e : ε} :
    l.mapM f = .error e ↔ ∃ before a after, l = before ++ a :: after ∧
      (∀ x ∈ before, ∃ y, f x = .ok y) ∧ f a = .error e := by
  induction l with
  | nil => simp [pure, Except.pure]
  | cons x l ih =>
    simp only [List.mapM_cons, exceptBind_eq_error, ih]
    constructor
    · rintro (hx | ⟨y, hy, ⟨before, a, after, rfl, hbefore, ha⟩ | ⟨r, -, hr⟩⟩)
      · exact ⟨[], x, l, rfl, by simp, hx⟩
      · refine ⟨x :: before, a, after, rfl, ?_, ha⟩
        simpa using ⟨⟨y, hy⟩, hbefore⟩
      · cases hr
    · rintro ⟨before, a, after, hl, hbefore, ha⟩
      cases before with
      | nil =>
        cases hl
        exact .inl ha
      | cons z before =>
        obtain ⟨rfl, rfl⟩ := List.cons.inj hl
        obtain ⟨y, hy⟩ := hbefore x List.mem_cons_self
        exact .inr ⟨y, hy, .inl ⟨before, a, after, rfl,
          fun b hb => hbefore b (List.mem_cons_of_mem x hb), ha⟩⟩

end Traversal

/-! ## The two ways of a value -/

namespace Item

variable {size : DataSize} {e : Expr} {v : Word}

/-- A declared value that is left to a field, literal or not. -/
def deferred (size : DataSize) (e : Expr) : Item := .data (.absolute e size)

/-- The field of a literal is settled with its number, whatever the context, and accepts it if the
declaration does. -/
theorem write_deferred_of_literal (h : e.literal = some v) (start stop : Word) (s : Emission) :
    (deferred size e).write start stop s =
      if v.fitsEither size then (raw (.literal (v.leBytes size))).write start stop s
      else .error (.encoding e.text (.outOfRange v size)) s := by
  have hsettle : (Field.absolute e size).settle start stop s.context = .ok v s.context :=
    Field.settle_of_absolute rfl (Expr.eval_of_literal h s.context) start stop
  have hwrite := (Field.absolute e size).write_apply start stop (.expression e.text) s
  rw [hsettle] at hwrite
  exact hwrite

/-- A value that is left to a field is written as the declared item is, and fails as the declaration
does. -/
theorem emit_deferred (size : DataSize) (e : Expr) (s : Emission) :
    (deferred size e).emit s =
      match DataDeclaration.valueItem size e with
      | .ok item => item.emit s
      | .error err => .error err s := by
  unfold DataDeclaration.valueItem
  cases h : e.literal with
  | none => rfl
  | some v =>
    have hlength : (raw (.literal (v.leBytes size))).length = (deferred size e).length :=
      v.length_leBytes size
    by_cases hfits : v.fitsEither size
    · simp only [emit_apply, write_deferred_of_literal h, hfits, hlength, ↓reduceIte]
    · simp only [emit_apply, write_deferred_of_literal h, hfits]
      rfl

/-- Known bytes go to a sink that has room for them, and the cursor moves past them. -/
theorem emit_raw {run : Run} {s : Emission} (h : s.sink.Takes run.toList) :
    (raw run).emit s =
      .ok run.length ⟨{ s.context with address := s.context.address + .ofNat run.length },
        s.sink.push run.toList⟩ := by
  have hwrite := Sink.write_of_takes h
  rw [Sink.eq_push_of_write hwrite] at hwrite
  rw [emit_eq_ok]
  exact ⟨⟨s.context, s.sink.push run.toList⟩, Emit.put_eq_ok.2 ⟨hwrite, rfl, rfl⟩, rfl⟩

/-- The items of a declaration are written as the fields would be to which all its values are
left. -/
theorem emitFrom_deferred {exprs : List Expr} {items : List Item}
    (h : exprs.mapM (DataDeclaration.valueItem size) = .ok items) (count : Nat) :
    emitFrom count (exprs.map (deferred size)) = emitFrom count items := by
  induction exprs generalizing items count with
  | nil =>
    cases h
    rfl
  | cons e exprs ih =>
    rw [List.mapM_cons] at h
    obtain ⟨item, hitem, h⟩ := exceptBind_eq_ok.1 h
    obtain ⟨rest, hrest, h⟩ := exceptBind_eq_ok.1 h
    cases h
    have hfirst : ((deferred size e).emit : Emit Nat) = item.emit := by
      funext s
      rw [emit_deferred, hitem]
    simp only [List.map_cons, emitFrom_cons, hfirst, ih hrest]

end Item

namespace DataDeclaration

variable {size : DataSize} {e : Expr} {v : Word}

theorem valueItem_of_literal (h : e.literal = some v) :
    valueItem size e = if v.fitsEither size then .ok (.raw (.literal (v.leBytes size)))
      else .error (.encoding e.text (.outOfRange v size)) := by
  rw [valueItem, h]

theorem valueItem_of_not_literal (h : e.literal = none) :
    valueItem size e = .ok (.deferred size e) := by
  rw [valueItem, h]
  rfl

section Room

variable {s : Emission} (hsink : ∀ bytes, s.sink.Takes bytes)

include hsink

/-- A literal that is declared is written as its field would be, which is settled without a symbol
or a relocation. -/
theorem emit_of_valueItem {item : Item} (h : e.literal = some v)
    (hitem : valueItem size e = .ok item) :
    item = .raw (.literal (v.leBytes size)) ∧
      ∀ i ∈ [item, .deferred size e], i.emit s = .ok size.bytes
        ⟨{ s.context with address := s.context.address + .ofNat size.bytes },
          s.sink.push (v.leBytes size)⟩ := by
  have hfits : item = .raw (.literal (v.leBytes size)) := by
    rw [valueItem_of_literal h] at hitem
    split at hitem
    · exact (Except.ok.inj hitem).symm
    · cases hitem
  have hemit := Item.emit_deferred size e s
  rw [hitem] at hemit
  have hraw := Item.emit_raw (hsink (Run.literal (v.leBytes size)).toList)
  rw [Run.length, Word.length_leBytes] at hraw
  refine ⟨hfits, ?_⟩
  simp only [List.mem_cons, List.not_mem_nil, or_false, forall_eq_or_imp, forall_eq, hemit, hfits]
  exact ⟨hraw, hraw⟩

/-- A literal is declared if and only if its field can be written. -/
theorem valueItem_eq_ok_iff (h : e.literal = some v) :
    (∃ item, valueItem size e = .ok item) ↔ ∃ n t, (Item.deferred size e).emit s = .ok n t := by
  rw [Item.emit_deferred]
  cases hitem : valueItem size e with
  | error err => simp
  | ok item =>
    obtain ⟨-, hemit⟩ := emit_of_valueItem hsink h hitem
    simp [hemit item List.mem_cons_self]

/-- A literal is refused with the error that its field would be refused with. -/
theorem valueItem_eq_error_iff (h : e.literal = some v) {err : AssemblyError} :
    valueItem size e = .error err ↔ ∃ t, (Item.deferred size e).emit s = .error err t := by
  rw [Item.emit_deferred]
  cases hitem : valueItem size e with
  | error err => simp
  | ok item =>
    obtain ⟨-, hemit⟩ := emit_of_valueItem hsink h hitem
    simp [hemit item List.mem_cons_self]

/-- A value is declared unless it is a literal whose field cannot be written. -/
theorem exists_valueItem_iff :
    (∃ item, valueItem size e = .ok item) ↔
      ∀ v, e.literal = some v → ∃ n t, (Item.deferred size e).emit s = .ok n t := by
  cases h : e.literal with
  | none => simp [valueItem_of_not_literal h]
  | some v => simp [valueItem_eq_ok_iff hsink h]

/-- A declaration fails at the first literal whose field cannot be written. -/
theorem mapM_valueItem_eq_error_iff {exprs : List Expr} {err : AssemblyError} :
    exprs.mapM (valueItem size) = .error err ↔
      ∃ before e after v, exprs = before ++ e :: after ∧ e.literal = some v ∧
        (∀ b ∈ before, ∀ w, b.literal = some w →
          ∃ n t, (Item.deferred size b).emit s = .ok n t) ∧
        ∃ t, (Item.deferred size e).emit s = .error err t := by
  simp only [mapM_eq_error_iff, exists_valueItem_iff hsink]
  constructor
  · rintro ⟨before, e, after, hexprs, hbefore, he⟩
    -- what is left to its field is not refused here
    cases h : e.literal with
    | none =>
      rw [valueItem_of_not_literal h] at he
      cases he
    | some v =>
      exact ⟨before, e, after, v, hexprs, h, hbefore, (valueItem_eq_error_iff hsink h).1 he⟩
  · rintro ⟨before, e, after, v, hexprs, h, hbefore, he⟩
    exact ⟨before, e, after, hexprs, hbefore, (valueItem_eq_error_iff hsink h).2 he⟩

end Room

/-- Declared literals agree with fields that they could be left to. A declaration succeeds if and
only if the fields of its literals can be written. Each literal then becomes the bytes of its field,
which move the cursor alike and leave the tables as they are, and all items together are written as
if every value had been left to a field. A declaration that fails does so at its first literal whose
field cannot be written, with the error of that field. -/
theorem literals_agree (hsize : isValueSize size) (exprs : List Expr) {s : Emission}
    (hsink : ∀ bytes, s.sink.Takes bytes) :
    ((∃ items, (values size exprs).items = .ok items) ↔
      ∀ e ∈ exprs, ∀ v, e.literal = some v →
        ∃ n t, (Item.deferred size e).emit s = .ok n t) ∧
    (∀ items, (values size exprs).items = .ok items →
      (Item.emitAll items : Emit Nat) = Item.emitAll (exprs.map (.deferred size)) ∧
        exprs.length = items.length ∧
        ∀ (k : Nat) e v, exprs[k]? = some e → e.literal = some v →
          items[k]? = some (.raw (.literal (v.leBytes size))) ∧
            ∀ i ∈ [.raw (.literal (v.leBytes size)), Item.deferred size e], i.emit s =
              .ok size.bytes ⟨{ s.context with address := s.context.address + .ofNat size.bytes },
                s.sink.push (v.leBytes size)⟩) ∧
    ∀ err, (values size exprs).items = .error err ↔
      ∃ before e after v, exprs = before ++ e :: after ∧ e.literal = some v ∧
        (∀ b ∈ before, ∀ w, b.literal = some w →
          ∃ n t, (Item.deferred size b).emit s = .ok n t) ∧
        ∃ t, (Item.deferred size e).emit s = .error err t := by
  have hitems : (values size exprs).items = exprs.mapM (valueItem size) := by
    rw [items, if_pos hsize]
  rw [hitems]
  refine ⟨⟨?_, ?_⟩, ?_, fun err => mapM_valueItem_eq_error_iff hsink⟩
  · rintro ⟨items, h⟩ e he
    obtain ⟨k, hk⟩ := List.mem_iff_getElem?.1 he
    obtain ⟨hlength, hall⟩ := mapM_eq_ok_iff.1 h
    have hlt : k < items.length := hlength ▸ (List.getElem?_eq_some_iff.1 hk).1
    exact (exists_valueItem_iff hsink).1
      ⟨items[k], hall k e _ hk (List.getElem?_eq_getElem hlt)⟩
  · intro hall
    cases h : exprs.mapM (valueItem size) with
    | ok items => exact ⟨items, rfl⟩
    | error err =>
      obtain ⟨before, e, after, v, rfl, hv, -, t, ht⟩ := (mapM_valueItem_eq_error_iff hsink).1 h
      obtain ⟨n, t', hok⟩ := hall e (by simp) v hv
      rw [hok] at ht
      cases ht
  · intro items h
    obtain ⟨hlength, hall⟩ := mapM_eq_ok_iff.1 h
    refine ⟨(Item.emitFrom_deferred h 0).symm, hlength, fun k e v hk hv => ?_⟩
    have hlt : k < items.length := hlength ▸ (List.getElem?_eq_some_iff.1 hk).1
    have hitem := hall k e _ hk (List.getElem?_eq_getElem hlt)
    obtain ⟨hraw, hemit⟩ := emit_of_valueItem hsink hv hitem
    rw [hraw] at hemit
    exact ⟨hraw ▸ List.getElem?_eq_getElem hlt, hemit⟩

/-- The least number of a byte, a reference, and the greatest number. -/
def byteRange : List Expr :=
  [.unary .negate (.constant 128), .reference "later", .binary .add (.constant 200) (.constant 55)]

/-- A field would write the least number as the byte that it is settled as, and the number behind
the greatest is refused with the text of its expression. -/
theorem literals_agree_byteRange :
    (∃ t : Emission, (Item.deferred .bit8 (.unary .negate (.constant 128))).emit
        ⟨.new .bit32, .new none⟩ = .ok 1 t ∧ t.sink = .buffer none #[0x80]) ∧
      (values .bit8 (byteRange ++ [.unary .increment (.constant 255)])).items =
        .error (.encoding "0xff + 1" (.outOfRange 256 .bit8)) := by
  let s : Emission := ⟨.new .bit32, .new none⟩
  have hsink : ∀ bytes, s.sink.Takes bytes := fun _ => trivial
  have hsize : isValueSize .bit8 := rfl
  obtain ⟨hiff, hok, -⟩ := literals_agree hsize byteRange hsink
  obtain ⟨-, -, herror⟩ := literals_agree hsize
    (byteRange ++ [.unary .increment (.constant 255)]) hsink
  have hitems : (values .bit8 byteRange).items =
      .ok [.raw (.literal [0x80]), .deferred .bit8 (.reference "later"),
        .raw (.literal [0xFF])] := rfl
  obtain ⟨-, -, hsettled⟩ := hok _ hitems
  have hbyte : s.sink.push ((-128 : Word).leBytes .bit8) = .buffer none #[0x80] := by decide
  constructor
  · exact ⟨_, (hsettled 0 _ (-128) rfl (by decide)).2 _ (by simp), hbyte⟩
  · exact (herror _).2 ⟨byteRange, _, [], 256, rfl, by decide, hiff.1 ⟨_, hitems⟩, s, rfl⟩

end DataDeclaration

end Assembler
