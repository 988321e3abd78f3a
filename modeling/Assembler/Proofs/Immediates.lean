import Assembler.Proofs.Folding
import Assembler.Proofs.RelocationTable

/-!
# Immediates that are known when the form is chosen

The first pass chooses a form by the values of immediates as it knows them. The second evaluates the
immediates again, and asks of each field whether it accepts the value. In between the table has
grown: by the declarations behind the instruction, by the starts of later sections, and by the
imports that earlier fields gave rise to.

* `ObjectFile.Visits.isPrefix`: where no declaration takes the name of a section's start, the first
  pass keeps what it knows at a leaf.
* `Instruction.encode_immediate`: a form that was chosen for a value has a field that accepts it.
* `ObjectFile.Visits.growsInto`: the second pass comes to an item as the first came to its leaf, in
  a table that has grown.

Main statement: `ObjectFile.known_immediates_fit`.
-/

namespace Assembler

/-! ## The table of the first pass -/

/-- The names of the starts of sections from `id` on are free. -/
def Context.SparesStarts (id : SectionId) (ctx : Context) : Prop :=
  ∀ n, id ≤ n → ctx.symbols.idOf? (Context.startName n) = none

/-- No leaf of the section declares the name of a section's start. -/
def Section.SparesStarts (s : Section) : Prop :=
  ∀ leaf ∈ Statement.allLeaves s.contents, ∀ n, leaf.declares? ≠ some (Context.startName n)

/-- The start of a section comes behind the other symbols. -/
theorem Context.SparesStarts.openSection {ctx : Context} {id : SectionId}
    (h : ctx.SparesStarts id) (start : Word) :
    ctx.symbols.IsPrefix (ctx.openSection id start).2.symbols ∧
      (ctx.openSection id start).2.SparesStarts (id + 1) := by
  have hfree : ctx.symbols.idOf? (startSymbol ctx.file id start).identifier = none :=
    h id (Nat.le_refl id)
  refine ⟨SymbolTable.isPrefix_insert hfree, fun n hn => ?_⟩
  have hname : startName n ≠ (startSymbol ctx.file id start).identifier := by
    intro hsame
    obtain rfl := startName_injective hsame
    exact Nat.not_succ_le_self _ hn
  have hkept := SymbolTable.idOf?_insert_ne (t := ctx.symbols) hname
  exact hkept.trans (h n (Nat.le_of_succ_le hn))

namespace Statement

/-- A leaf names something behind the other symbols. -/
theorem place_isPrefix {leaf : Statement} {ctx after : Context} {items : List Item}
    (h : leaf.place ctx = .ok items after) : ctx.symbols.IsPrefix after.symbols := by
  rcases place_cases h with rfl | ⟨s, hnew, rfl⟩
  · exact .refl _
  · exact SymbolTable.isPrefix_insert (SymbolTable.find?_eq_none_iff.1 hnew)

theorem place_sparesStarts {leaf : Statement} {ctx after : Context} {items : List Item}
    (h : leaf.place ctx = .ok items after)
    (hleaf : ∀ n, leaf.declares? ≠ some (Context.startName n)) {id : SectionId}
    (hctx : ctx.SparesStarts id) : after.SparesStarts id := by
  obtain ⟨-, rfl⟩ | ⟨identifier, s, hdeclares, -, -, rfl, rfl⟩ := place_eq_ok h
  · exact hctx
  · intro n hn
    have hname : Context.startName n ≠ s.identifier := fun hsame => hleaf n (hsame ▸ hdeclares)
    exact (SymbolTable.idOf?_insert_ne hname).trans (hctx n hn)

theorem constructAll_isPrefix {l : List Statement} (hl : ∀ leaf ∈ l, leaf.IsLeaf)
    {ctx after : Context} {items : List Item} (h : constructAll l ctx = .ok items after) :
    ctx.symbols.IsPrefix after.symbols :=
  constructAll_keeps (P := fun later => ctx.symbols.IsPrefix later.symbols) hl
    (fun _ _ hlater => hlater)
    (fun _ _ _ _ _ hplace hlater => hlater.trans (place_isPrefix hplace)) h (.refl _)

theorem constructAll_sparesStarts {l : List Statement} (hl : ∀ leaf ∈ l, leaf.IsLeaf)
    (hnames : ∀ leaf ∈ l, ∀ n, leaf.declares? ≠ some (Context.startName n))
    {ctx after : Context} {items : List Item} (h : constructAll l ctx = .ok items after)
    {id : SectionId} (hctx : ctx.SparesStarts id) : after.SparesStarts id :=
  constructAll_keeps hl (fun _ _ hsame => hsame)
    (fun leaf hleaf _ _ _ hplace => place_sparesStarts hplace (hnames leaf hleaf)) h hctx

end Statement

namespace ObjectFile

/-- A run over sections keeps every symbol under its id, if the names of their starts are free and
stay free until they are opened. -/
theorem constructSections_isPrefix {l : List Section} (hl : ∀ s ∈ l, s.SparesStarts) {id : Nat}
    {stop : Word} {ctx after : Context} {placed : List PlacedSection}
    (h : constructSections id stop [] ctx l = (.ok (), after, placed))
    (hctx : ctx.SparesStarts id) :
    ctx.symbols.IsPrefix after.symbols ∧ after.SparesStarts (id + l.length) := by
  induction l generalizing id stop ctx placed with
  | nil =>
    cases h
    exact ⟨.refl _, hctx⟩
  | cons s l ih =>
    obtain ⟨p, next, rest, hp, hrest, rfl⟩ := constructSections_cons_eq_ok.1 h
    obtain ⟨-, hitems, -⟩ := Section.construct_ok hp
    have hleaves := Statement.isLeaf_of_mem_allLeaves s.contents
    obtain ⟨hopened, hspares⟩ := hctx.openSection p.start
    have hnext : next.SparesStarts (id + 1) :=
      Statement.constructAll_sparesStarts hleaves (hl s List.mem_cons_self) hitems hspares
    obtain ⟨hlater, hafter⟩ := ih (fun x hx => hl x (List.mem_cons_of_mem s hx)) hrest hnext
    refine ⟨(hopened.trans (Statement.constructAll_isPrefix hleaves hitems)).trans hlater, ?_⟩
    rw [List.length_cons, Nat.add_comm l.length, ← Nat.add_assoc]
    exact hafter

/-- What the table holds where a leaf is visited it holds under the same ids when all sections are
laid out. -/
theorem Visits.isPrefix {obj built : ObjectFile} (h : obj.construct = (.ok (), built))
    (hnames : ∀ s ∈ obj.sections, s.SparesStarts) {k j : Nat} {leaf : Statement}
    {made : List Item} {ctx : Context} (hvisit : obj.Visits k j leaf made ctx) :
    ctx.symbols.IsPrefix built.context.symbols := by
  obtain ⟨s, before, mid, start, hk, hj, htake, hstart, hmade⟩ := hvisit
  obtain ⟨hrun, -⟩ := construct_ok h
  -- the run that came to the leaf is the one that goes on behind it
  obtain ⟨before', mid', p, next, rest, htake', hlength, hp, hrest, -⟩ :=
    constructSections_split hrun hk
  rw [htake] at htake'
  cases htake'
  obtain ⟨hstart', hitems, -⟩ := Section.construct_ok hp
  rw [hstart] at hstart'
  cases hstart'
  rw [Nat.zero_add] at hitems hrest
  have hleaves := Statement.isLeaf_of_mem_allLeaves s.contents
  obtain ⟨made', ctx', own, placed, more, hmade', hplace, hmore, -⟩ :=
    Statement.constructAll_split hleaves hitems hj
  rw [hmade] at hmade'
  cases hmade'
  have hempty : (Context.new obj.context.mode).SparesStarts 0 := fun _ _ => rfl
  have hmid : mid.SparesStarts k := by
    have htaken := (constructSections_isPrefix
      (fun x hx => hnames x (List.mem_of_mem_take hx)) htake hempty).2
    rwa [← (constructSections_isFilled htake).1, hlength, Nat.zero_add] at htaken
  have hnext : next.SparesStarts (k + 1) :=
    Statement.constructAll_sparesStarts hleaves (hnames s (List.mem_of_getElem? hk)) hitems
      (hmid.openSection _).2
  have hsection :=
    Statement.constructAll_isPrefix (fun x hx => hleaves x (List.mem_of_mem_drop hx)) hmore
  have hlater := (constructSections_isPrefix
    (fun x hx => hnames x (List.mem_of_mem_drop hx)) hrest hnext).1
  exact ((Statement.place_isPrefix hplace).trans hsection).trans hlater

end ObjectFile

/-! ## The field of an immediate -/

namespace Form

variable {f : Form} {operands : List Operand} {mode : Mode} {size : DataSize} {e : Expr} {v : Word}
  {field : Field}

theorem mem_operandFields :
    field ∈ f.operandFields operands size ↔
      ∃ o slot op plain, (f.pair operands)[o]? = some (slot, op) ∧
        f.operandField? size slot op = some plain ∧ field = plain.ofOperand o := by
  simp only [operandFields, List.mem_filterMap, Prod.exists, List.mk_mem_zipIdx_iff_getElem?,
    Option.map_eq_some_iff]
  grind

/-- The fields of an encoded form that belong to operands are those of its operands. -/
theorem mem_fields_of_encode {mnemonic : String} {bytes : List UInt8} {fields : List Field}
    (h : f.encode mnemonic operands mode = .ok (bytes, fields)) :
    ∃ size, ∀ field, field.operand ≠ none →
      (field ∈ fields ↔ field ∈ f.operandFields operands size) := by
  unfold encode at h
  simp only [exceptBind_eq_ok] at h
  obtain ⟨_, -, size, -, _, -, tail, htail, _, -, h⟩ := h
  cases h
  refine ⟨size.getD mode.addressSize, fun field hfield => ?_⟩
  rw [List.mem_append, or_iff_right]
  intro hdisplacement
  obtain ⟨m, -, h⟩ := operandBytes_isDisplacement htail (by simpa using hdisplacement)
  exact hfield h.operand

/-- A slot that accepts an immediate by its value gives it a field that accepts the value. -/
theorem accepts_of_acceptsOperand {slot : Slot} {plain : Field}
    (h : f.acceptsOperand slot.shape (.immediate ⟨e, none⟩) (some v) operands)
    (hplain : f.operandField? size slot (.immediate ⟨e, none⟩) = some plain) :
    plain.expr = e ∧ plain.kind = .absolute ∧ plain.accepts v := by
  unfold acceptsOperand at h
  split at h
  case h_6 width imm hshape himm =>
    cases himm
    simp only [operandField?, hshape, Shape.size, Option.some.injEq] at hplain
    subst hplain
    -- what selection asks of the value is what the field asks of it
    by_cases hextends : f.signExtends
    · simp only [acceptsImmediate, hextends, ↓reduceIte] at h ⊢
      exact ⟨rfl, rfl, h⟩
    · simp only [acceptsImmediate, hextends] at h ⊢
      exact ⟨rfl, rfl, h⟩
  all_goals contradiction

end Form

namespace Instruction

variable {i : Instruction} {mode : Mode} {ctx : Context} {o : Nat} {e : Expr} {v : Word}

/-- Selection knows the number that an expression has in the context. -/
theorem knownExpr_of_eval (h : e.eval ctx = .ok (.absolute v)) :
    knownExpr (some ctx) e = some v := by
  unfold knownExpr
  cases hliteral : e.literal with
  | none => simp [h, Value.isAbsolute, Value.absolute]
  | some w =>
    have hfolded := Expr.eval_of_literal hliteral ctx
    rw [h] at hfolded
    cases hfolded
    rfl

/-- An immediate without a stated width whose value is known has a field in the form that is
selected, and every field of it accepts the value. -/
theorem encode_immediate {encoded : Encoded}
    (h : i.encode mode (i.knownValues (some ctx)) = .ok encoded)
    (ho : i.operands[o]? = some (.immediate ⟨e, none⟩)) (hv : e.eval ctx = .ok (.absolute v)) :
    (∃ f ∈ encoded.fields, f.operand = some o) ∧
      ∀ f ∈ encoded.fields, f.operand = some o →
        f.expr = e ∧ f.kind = .absolute ∧ f.accepts v := by
  obtain ⟨form, hselect, h⟩ := exceptBind_eq_ok.1 h
  obtain ⟨⟨bytes, fields⟩, hencode, h⟩ := exceptBind_eq_ok.1 h
  cases h
  have haccepts : form.accepts i.operands (i.knownValues (some ctx)) mode := by
    have hfound := List.find?_some (select_eq_ok_iff.1 hselect)
    rw [decide_eq_true_eq] at hfound
    exact hfound.1
  have hknown : (i.knownValues (some ctx)).valueAt o = some v := by
    simp [KnownValues.valueAt, knownValues, ho, knownOperand, knownExpr_of_eval hv]
  obtain ⟨slot, hslot⟩ : ∃ slot, form.slots[o]? = some slot := by
    have hlt := (List.getElem?_eq_some_iff.1 ho).1
    rw [← Form.length_eq_of_accepts haccepts] at hlt
    exact ⟨_, List.getElem?_eq_getElem hlt⟩
  have hpair : (form.pair i.operands)[o]? = some (slot, .immediate ⟨e, none⟩) :=
    List.getElem?_zip_eq_some.2 ⟨hslot, ho⟩
  have hshape := Form.acceptsOperand_of_accepts haccepts hpair
  rw [hknown] at hshape
  obtain ⟨size, hfields⟩ := Form.mem_fields_of_encode hencode
  constructor
  · obtain ⟨plain, hplain⟩ :
        ∃ plain, form.operandField? size slot (.immediate ⟨e, none⟩) = some plain := ⟨_, rfl⟩
    refine ⟨plain.ofOperand o, (hfields _ (Option.some_ne_none o)).2 ?_, rfl⟩
    exact Form.mem_operandFields.2 ⟨o, slot, _, plain, hpair, hplain, rfl⟩
  · intro f hf hoperand
    obtain ⟨o', slot', op', plain, hpair', hplain, rfl⟩ :=
      Form.mem_operandFields.1 ((hfields f (by simp [hoperand])).1 hf)
    cases hoperand
    rw [hpair] at hpair'
    cases hpair'
    -- the position of the operand changes nothing of what the field accepts
    have hfits := Form.accepts_of_acceptsOperand hshape hplain
    exact hfits

end Instruction

/-! ## Coming to a field -/

/-- A field that is to hold a number is settled with it, and nothing else changes. -/
theorem Field.settle_of_absolute {f : Field} {ctx : Context} {v : Word} (hkind : f.kind = .absolute)
    (heval : f.expr.eval ctx = .ok (.absolute v)) (address stop : Word) :
    f.settle address stop ctx = .ok v ctx := by
  rw [settle_of_resolve heval rfl, settled, number, hkind]
  rfl

/-- Writing a field leaves the cursor, and the table grows. -/
theorem Field.write_growsInto {f : Field} (hf : f.expr.IsFunctionFree) {address stop : Word}
    {wrap : EvalError → AssemblyError} {s t : Emission} {n : Nat}
    (h : f.write address stop wrap s = .ok n t) {ctx : Context} (hctx : ctx.GrowsInto s.context) :
    ctx.GrowsInto t.context := by
  obtain ⟨-, value, hsettle, -⟩ := write_writes h
  obtain ⟨hgrows, hsame⟩ := settle_grows hf hsettle
  refine ⟨?_, ?_, hctx.symbols.trans hgrows.isPrefix, hctx.start⟩
  · rw [hsame, ← hctx.address]
  · rw [hsame, ← hctx.current]

namespace Encoded

/-- Writes an instruction up to its field `q`, and counts the bytes. -/
def writeUpTo (e : Encoded) (start stop : Word) (q : Nat) : Emit Nat := do
  let count ← Emit.put (.literal e.bytes)
  e.writeFields start stop count (e.fields.take q)

theorem writeFields_append (e : Encoded) (start stop : Word) (written : Nat) (a b : List Field) :
    (e.writeFields start stop written (a ++ b) : Emit Nat) =
      e.writeFields start stop written a >>= fun n => e.writeFields start stop n b := by
  induction a generalizing written with
  | nil => simp [writeFields]
  | cons f a ih => simp only [List.cons_append, writeFields, ih, bind_assoc]

/-- An instruction is written up to a field, then the field, and then what is behind it. -/
theorem write_at {e : Encoded} {q : Nat} {f : Field} (h : e.fields[q]? = some f)
    (start stop : Word) :
    (Item.instruction e).write start stop =
      e.writeUpTo start stop q >>= fun n =>
        f.write (start + .ofNat n) stop (e.fieldError f) >>= fun m =>
          e.writeFields start stop (n + m) (e.fields.drop (q + 1)) := by
  rw [Item.write, writeUpTo, bind_assoc]
  conv => lhs; rw [eq_take_append_cons_drop h]
  simp only [writeFields_append, writeFields]

/-- Fields that are written leave a context that has grown. -/
theorem writeFields_growsInto {e : Encoded} {fields : List Field}
    (hfields : ∀ f ∈ fields, f.expr.IsFunctionFree) {start stop : Word} {written n : Nat}
    {s t : Emission} (h : e.writeFields start stop written fields s = .ok n t) {ctx : Context}
    (hctx : ctx.GrowsInto s.context) : ctx.GrowsInto t.context := by
  induction fields generalizing written s with
  | nil =>
    cases h
    exact hctx
  | cons f fields ih =>
    obtain ⟨count, u, hf, hrest⟩ := bind_eq_ok.1 h
    exact ih (fun g hg => hfields g (List.mem_cons_of_mem f hg)) hrest
      (Field.write_growsInto (hfields f List.mem_cons_self) hf hctx)

theorem writeUpTo_growsInto {e : Encoded} (hfields : ∀ f ∈ e.fields, f.expr.IsFunctionFree)
    {start stop : Word} {q n : Nat} {s t : Emission} (h : e.writeUpTo start stop q s = .ok n t)
    {ctx : Context} (hctx : ctx.GrowsInto s.context) : ctx.GrowsInto t.context := by
  obtain ⟨count, u, hput, hrest⟩ := bind_eq_ok.1 h
  obtain ⟨-, hsame, -⟩ := Emit.put_eq_ok.1 hput
  exact writeFields_growsInto (fun f hf => hfields f (List.mem_of_mem_take hf)) hrest
    (hsame.symm ▸ hctx)

/-- An instruction that is written has the bytes of a field behind those before it. -/
theorem output_at {e : Encoded} {q : Nat} {f : Field} (h : e.fields[q]? = some f) {s t : Emission}
    {n : Nat} (hemit : (Item.instruction e).emit s = .ok n t) :
    let stop := s.context.address + .ofNat e.length
    ∃ m u number after first last,
      e.writeUpTo s.context.address stop q s = .ok m u ∧
      f.settle (s.context.address + .ofNat m) stop u.context = .ok number after ∧
      List.length first = e.bytes.length + fieldsLength (e.fields.take q) ∧
      Emit.output (Item.instruction e).emit s.context =
        first ++ number.leBytes f.size ++ last := by
  intro stop
  obtain ⟨w, hwrite, rfl⟩ := Item.emit_eq_ok.1 hemit
  have hcut := write_at h s.context.address stop
  have hparts := hwrite
  change (Item.instruction e).write s.context.address stop s = .ok n w at hparts
  rw [hcut] at hparts
  obtain ⟨m, u, hupTo, hparts⟩ := bind_eq_ok.1 hparts
  obtain ⟨count, v, hfield, hrest⟩ := bind_eq_ok.1 hparts
  obtain ⟨c, x, hput, hfields⟩ := bind_eq_ok.1 hupTo
  obtain ⟨-, bytes, hlength, hbytes⟩ := writeFields_writes hfields
  obtain ⟨-, number, hsettle, hnumber⟩ := Field.write_writes hfield
  obtain ⟨-, rest, -, hrest⟩ := writeFields_writes hrest
  have hfirst : Emit.Writes (e.writeUpTo s.context.address stop q) s m u (e.bytes ++ bytes) :=
    (Emit.put_writes hput).bind hbytes
  have hall : Emit.Writes ((Item.instruction e).write s.context.address stop) s n w
      (e.bytes ++ bytes ++ (number.leBytes f.size ++ rest)) := by
    rw [hcut]
    exact hfirst.bind (hnumber.bind hrest)
  refine ⟨m, u, number, v.context, e.bytes ++ bytes, rest, hupTo, hsettle, ?_, ?_⟩
  · rw [List.length_append, hlength]
  · rw [(Item.writes_emit hall).output, List.append_assoc _ _ rest]

end Encoded

namespace ObjectFile

/-- The second pass comes to an item in the section of the item, and the table has grown. -/
theorem Reaches.grows {obj : ObjectFile}
    (hfree : ∀ p ∈ obj.placed, ∀ item ∈ p.items, ∀ f ∈ item.fields, f.expr.IsFunctionFree)
    {sink : Sink} {k i : Nat} {item : Item} {st : Emission} (h : obj.Reaches sink k i item st) :
    obj.context.symbols.Grows st.context.symbols ∧ st.context.current = some k := by
  obtain ⟨s, p, n, mid, m, hk, -, hbefore, hrun⟩ := h
  obtain ⟨gap, u, henter, hitems⟩ := bind_eq_ok.1 hrun
  have hsections := ((Emit.closed_grows _).emitSections
    (fun sp hsp => hfree sp.2 (List.of_mem_zip (List.mem_of_mem_take hsp)).2)
    (Nat.le_refl _) none 0).of_ok hbefore
  have hp : p ∈ obj.placed := (List.of_mem_zip (List.mem_of_getElem? hk)).2
  obtain ⟨hgrows, hcurrent⟩ := (Emit.closed_growsIn.emitFrom
    (fun x hx => hfree p hp x (List.mem_of_mem_take hx)) gap).of_ok hitems
  rw [Section.enter_context henter] at hgrows hcurrent
  exact ⟨hsections.trans hgrows, hcurrent⟩

/-- The second pass comes to field `q` of an instruction, item `i` of section `k`, in the state
`st`. The field stands at `address`, and the instruction stops at `stop`. -/
def ReachesField (obj : ObjectFile) (sink : Sink) (k i : Nat) (encoded : Encoded) (q : Nat)
    (address stop : Word) (st : Emission) : Prop :=
  ∃ s m, obj.Reaches sink k i (.instruction encoded) s ∧
    stop = s.context.address + .ofNat encoded.length ∧
    encoded.writeUpTo s.context.address stop q s = .ok m st ∧ address = s.context.address + .ofNat m

/-- The second pass writes the number `v` to field `q` of an instruction, item `i` of section
`k`. -/
structure WritesNumber (obj : ObjectFile) (sink : Sink) (k i : Nat) (encoded : Encoded) (q : Nat)
    (f : Field) (v : Word) : Prop where
  eval : ∀ address stop st, obj.ReachesField sink k i encoded q address stop st →
    f.expr.eval st.context = .ok (.absolute v)
  write : ∀ address stop st, obj.ReachesField sink k i encoded q address stop st →
    f.write address stop (encoded.fieldError f) st = Emit.put (.literal (v.leBytes f.size)) st
  /-- A pass that ends here finds its sink full. -/
  error : ∀ address stop st e t, obj.ReachesField sink k i encoded q address stop st →
    f.write address stop (encoded.fieldError f) st = .error e t →
    e = .sinkFull ∧ (obj.emit sink).1 = .error .sinkFull
  /-- In the image, the instruction stands behind the sections and the items before it. In its
  bytes, those of the field stand behind the fixed ones and the fields before it. -/
  image : ∀ n final out p, obj.emit sink = (.ok n, final, out) → obj.placed[k]? = some p →
    ∃ s first last before after, obj.Reaches sink k i (.instruction encoded) s ∧
      before.length = imageStart none (obj.sections.zip obj.placed) k +
        totalLength (p.items.take i) ∧
      first.length = encoded.bytes.length + Encoded.fieldsLength (encoded.fields.take q) ∧
      Emit.output (Item.instruction encoded).emit s.context =
        first ++ v.leBytes f.size ++ last ∧
      out = sink.push (before ++ (first ++ v.leBytes f.size ++ last) ++ after)

/-- A field writes a number if it evaluates to it and accepts it. -/
theorem WritesNumber.of_eval {obj : ObjectFile} (hobj : obj.IsLaidOut) {sink : Sink} {k i q : Nat}
    {s : Section} {p : PlacedSection} {encoded : Encoded} {f : Field} {v : Word}
    (hs : obj.sections[k]? = some s) (hloaded : s.kind ≠ .bss) (hp : obj.placed[k]? = some p)
    (hi : p.items[i]? = some (.instruction encoded)) (hq : encoded.fields[q]? = some f)
    (hkind : f.kind = .absolute) (hfits : f.accepts v)
    (heval : ∀ address stop st, obj.ReachesField sink k i encoded q address stop st →
      f.expr.eval st.context = .ok (.absolute v)) :
    obj.WritesNumber sink k i encoded q f v := by
  have hwrite : ∀ address stop st, obj.ReachesField sink k i encoded q address stop st →
      f.write address stop (encoded.fieldError f) st =
        Emit.put (.literal (v.leBytes f.size)) st := by
    intro address stop st hfield
    rw [Field.write_apply, Field.settle_of_absolute hkind (heval _ _ _ hfield)]
    exact if_pos hfits
  refine ⟨heval, hwrite, ?_, ?_⟩
  · intro address stop st e t hfield herror
    have hfull : e = .sinkFull := Emit.put_error ((hwrite _ _ _ hfield).symm.trans herror)
    obtain ⟨start, m, hreach, rfl, hupTo, rfl⟩ := hfield
    have hitem : (Item.instruction encoded).emit start = .error e t := by
      have hall : (Item.instruction encoded).write start.context.address
          (start.context.address + .ofNat encoded.length) start = .error e t := by
        rw [Encoded.write_at hq, bind_eq_error]
        exact .inr ⟨m, st, hupTo, bind_eq_error.2 (.inl herror)⟩
      rw [Item.emit_apply, Item.length, hall]
    exact ⟨hfull, hfull ▸ hreach.emit_error hobj hitem⟩
  · intro n final out p' hemit hp'
    obtain ⟨t, hrun, -, -, rfl⟩ := (emit_eq_ok hobj).1 hemit
    obtain ⟨start, hreach⟩ := exists_reaches hobj (by rw [hemit]) hp hi
    obtain ⟨c, w, hitem, -⟩ := hreach.emit_ok hobj hrun
    obtain ⟨m, u, number, after, first, last, hupTo, hsettle, hlength, houtput⟩ :=
      Encoded.output_at hq hitem
    have hknown := heval _ _ u ⟨start, m, hreach, rfl, hupTo, rfl⟩
    rw [Field.settle_of_absolute hkind hknown] at hsettle
    cases hsettle
    obtain ⟨front, back, hfront, hout⟩ := hreach.exists_push hobj hrun hs hloaded hp'
    exact ⟨start, first, last, front, back, hreach, hfront, hlength, houtput,
      by rw [hout, houtput]⟩

/-- The second pass comes to the first item of a leaf as the first pass came to the leaf, in a table
that has grown. -/
theorem Visits.growsInto {obj built again : ObjectFile} (h : obj.construct = (.ok (), built))
    (hfree : ∀ s ∈ obj.sections, s.IsFunctionFree) (hnames : ∀ s ∈ obj.sections, s.SparesStarts)
    (hretried : built.Retried again) {k j : Nat} {leaf : Statement} {made more : List Item}
    {ctx : Context} {p : PlacedSection} (hvisit : obj.Visits k j leaf made ctx)
    (hp : built.placed[k]? = some p) (hitems : p.items = made ++ more)
    (haddress : ctx.address = advance p.start made) {sink : Sink} {item : Item} {st : Emission}
    (hreach : again.Reaches sink k made.length item st) : ctx.GrowsInto st.context := by
  have hbuilt := IsBuilt.of_construct h
  have hfields := construct_isFunctionFree h hfree
  have hrun : Emit.Resumable built.sections.length built.run :=
    of_closed built (Emit.closed_resumable _) hfields
  have hplaced : again.placed = built.placed := by rw [(hretried.lists hbuilt).1]
  obtain ⟨hcurrent, -⟩ := hvisit.homesBelow
  obtain ⟨hgrows, hentered⟩ := hreach.grows (hplaced ▸ hfields)
  refine ⟨?_, hentered.trans hcurrent.symm, ?_, fun n hn => ?_⟩
  · rw [hreach.address (hplaced ▸ hp), haddress, hitems, List.take_left]
  · -- the declarations behind the leaf, the imports of failed tries, and those of this one
    have htried := (hretried.resumes hbuilt hrun).grows hbuilt hrun
    exact (hvisit.isPrefix h hnames).trans (htried.trans hgrows).isPrefix
  · rw [hcurrent, Option.some.injEq] at hn
    subst hn
    exact (hvisit.knows (.inr (.inl rfl))).2.isSome_idOf?

/-- An instruction of a program of function-free expressions, in which no declaration takes the name
of a section's start. The first pass visits it in `ctx` and makes the item `encoded` of it. An
immediate that states no width and has the number `v` in `ctx`, by folding or by its value there,
has a field in the form that was selected for it, and the field accepts `v`. In the second pass,
after any number of tries that failed, the immediate comes to `v` again and the low bytes of `v` are
written. Nothing but a full sink keeps them from being written. -/
theorem known_immediates_fit {obj built again : ObjectFile} (h : obj.construct = (.ok (), built))
    (hfree : ∀ s ∈ obj.sections, s.IsFunctionFree) (hnames : ∀ s ∈ obj.sections, s.SparesStarts)
    (hretried : built.Retried again) {k j : Nat} {s : Section} {i : Instruction}
    (hs : obj.sections[k]? = some s)
    (hj : (Statement.allLeaves s.contents)[j]? = some (.instruction i)) :
    ∃ made ctx encoded p, obj.Visits k j (.instruction i) made ctx ∧
      i.encode ctx.mode (i.knownValues (some ctx)) = .ok encoded ∧
      built.placed[k]? = some p ∧ p.items[made.length]? = some (.instruction encoded) ∧
      ∀ o e v, i.operands[o]? = some (.immediate ⟨e, none⟩) →
        e.literal = some v ∨ e.eval ctx = .ok (.absolute v) →
        (∃ f ∈ encoded.fields, f.operand = some o) ∧
        ∀ q f, encoded.fields[q]? = some f → f.operand = some o →
          f.expr = e ∧ f.accepts v ∧
          ∀ sink, again.WritesNumber sink k made.length encoded q f v := by
  obtain ⟨made, ctx, own, placed, p, rest, hvisit, hplace, hp, hitems, haddress, -⟩ :=
    exists_visit h hs hj
  obtain ⟨encoded, hencode, rfl⟩ : ∃ encoded,
      i.encode ctx.mode (i.knownValues (some ctx)) = .ok encoded ∧
        own = [.instruction encoded] := (Statement.place_instruction_eq_ok.1 hplace).1
  have hitem : p.items[made.length]? = some (.instruction encoded) := by simp [hitems]
  refine ⟨made, ctx, encoded, p, hvisit, hencode, hp, hitem, fun o e v ho hv => ?_⟩
  have heval : e.eval ctx = .ok (.absolute v) := hv.elim (Expr.eval_of_literal · ctx) id
  obtain ⟨hexists, hall⟩ := Instruction.encode_immediate hencode ho heval
  refine ⟨hexists, fun q f hq hoperand => ?_⟩
  obtain ⟨rfl, hkind, hfits⟩ := hall f (List.mem_of_getElem? hq) hoperand
  refine ⟨rfl, hfits, fun sink => ?_⟩
  have hsections : built.sections[k]? = some s := (construct_ok h).2.1 ▸ hs
  obtain ⟨hsame, -⟩ := hretried.lists (IsBuilt.of_construct h)
  have hloaded : s.kind ≠ .bss := by
    obtain ⟨stop, mid, next, _, hsection, -⟩ := exists_construct_of_placed h hsections hp
    intro hbss
    cases (Section.construct_eq_ok.1 hsection).2.2.2 hbss _ (List.mem_of_getElem? hitem)
  have hspelled : ∀ g ∈ encoded.fields, g.expr.IsFunctionFree :=
    construct_isFunctionFree h hfree p (List.mem_of_getElem? hp) _ (List.mem_of_getElem? hitem)
  refine .of_eval (hretried.isLaidOut (IsBuilt.of_construct h)) (by rwa [hsame]) hloaded
    (by rwa [hsame]) hitem hq hkind hfits ?_
  rintro address stop st ⟨start, m, hreach, rfl, hupTo, rfl⟩
  have hgrown : ctx.GrowsInto st.context :=
    Encoded.writeUpTo_growsInto hspelled hupTo
      (hvisit.growsInto h hfree hnames hretried hp (hitems.trans (List.append_assoc _ _ _)) haddress
        hreach)
  exact Expr.eval_absolute_of_growsInto (hspelled f (List.mem_of_getElem? hq)) hgrown heval

/-- An import in two bytes, and then `add eax, ($ - here) + gap`. -/
def sumBehindImport : ObjectFile :=
  let sum : Expr := .binary .add (.binary .sub .position (.reference "here")) (.reference "gap")
  (ObjectFile.new .bit32 .relocatable).addSection
    { Section.new "text" .text with contents :=
        [.label "here" .plain, .data (.values .bit16 [.reference "away"]),
          .group [.define "gap" (.constant 4) .plain,
            .instruction ⟨"add", [.register .eax, .imm sum]⟩],
          .label "later" .plain] }

/-- After a try that failed behind the import, the sum comes to 6 again and takes one byte. -/
theorem known_immediates_fit_sumBehindImport :
    ∃ built p encoded f again final out first last before after,
      sumBehindImport.construct = (.ok (), built) ∧ built.placed[0]? = some p ∧
      p.items[1]? = some (.instruction encoded) ∧ encoded.fields = [f] ∧ f.accepts 6 ∧
      again = (built.emit (.new (some 4))).2.1 ∧ again.context.relocations.size = 1 ∧
      again.emit (.new none) = (.ok 5, final, out) ∧
      List.length before = 2 ∧ List.length first = encoded.bytes.length ∧
      out = Sink.push (.new none) (before ++ (first ++ [6] ++ last) ++ after) := by
  have hbuilt : sumBehindImport.construct = (.ok (), sumBehindImport.construct.2) :=
    Prod.ext (eq_ok_of_toOption (by decide +kernel)) rfl
  have hfree : ∀ s ∈ sumBehindImport.sections, s.IsFunctionFree := by decide +kernel
  have hnames : ∀ s ∈ sumBehindImport.sections, s.SparesStarts := by
    have hheads : ∀ s ∈ sumBehindImport.sections, ∀ leaf ∈ Statement.allLeaves s.contents,
        (leaf.declares?.bind fun name => name.toList.head?) ≠ some 's' := by decide +kernel
    intro s hs leaf hleaf n hdeclares
    have hhead := hheads s hs leaf hleaf
    simp [hdeclares, Context.startName] at hhead
  have hretried : sumBehindImport.construct.2.Retried _ :=
    .failed (.new (some 4)) .none (by decide +kernel)
  have hemit :
      ((sumBehindImport.construct.2.emit (.new (some 4))).2.1.emit (.new none)).1 = .ok 5 :=
    eq_ok_of_toOption (by decide +kernel)
  obtain ⟨made, ctx, encoded, p, hvisit, hencode, hp, hitem, hall⟩ :=
    known_immediates_fit hbuilt hfree hnames hretried (k := 0) (j := 3) rfl rfl
  obtain ⟨s, before, mid, start, hk, -, hrun, hstart, hmade⟩ := hvisit
  cases hk
  cases hrun
  cases hstart
  cases hmade
  obtain ⟨f, hfields, hf⟩ : ∃ f, encoded.fields = [f] ∧ (f.size, f.operand) = (.bit8, some 1) := by
    have hshape := congrArg (fun x => x.toOption.map fun e => e.fields.map fun f =>
      (f.size, f.operand)) hencode
    have hfields : some [(DataSize.bit8, some 1)] = some _ := Eq.trans (by decide +kernel) hshape
    exact List.map_eq_singleton_iff.1 (Option.some.inj hfields).symm
  obtain ⟨hsize, hoperand⟩ := Prod.mk.inj hf
  obtain ⟨-, hwritten⟩ := hall 1 _ 6 rfl (.inr rfl)
  obtain ⟨-, hfits, hwrites⟩ := hwritten 0 f (by rw [hfields]; rfl) hoperand
  have hagain : (sumBehindImport.construct.2.emit (.new (some 4))).2.1.placed[0]? = some p := by
    rw [(hretried.lists (.of_construct hbuilt)).1]
    exact hp
  obtain ⟨-, first, last, front, back, -, hfront, hlength, -, hout⟩ :=
    (hwrites (.new none)).image 5 _ _ p (Prod.ext hemit rfl) hagain
  have hbehind : List.length front = 2 := by
    let place (o : ObjectFile) (p : PlacedSection) :=
      imageStart none (o.sections.zip o.placed) 0 + totalLength (p.items.take 1)
    have hplace : (sumBehindImport.construct.2.emit (.new (some 4))).2.1.placed[0]?.map
        (place (sumBehindImport.construct.2.emit (.new (some 4))).2.1) = some 2 := by decide +kernel
    rw [hagain] at hplace
    exact hfront.trans (Option.some.inj hplace)
  refine ⟨_, p, encoded, f, _, _, _, first, last, front, back, hbuilt, hp, hitem, hfields, hfits,
    rfl, by decide +kernel, Prod.ext hemit rfl, hbehind, hlength, ?_⟩
  rw [hsize] at hout
  exact hout

end ObjectFile

end Assembler
