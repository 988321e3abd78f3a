import Assembler.Proofs.Emission
import Assembler.Proofs.FirstPass
import Assembler.Proofs.Linking
import Mathlib.Algebra.Group.Nat.Defs

/-!
# Relocations ask for what a definition would have written

Items are written twice, once while a symbol is an import and once where it is defined. Both runs go
through the same items at the same addresses, and differ in the fields that wait for the symbol.

`Patched` relates what the two runs hand over, field by field; runs after each other compose
(`Tracks.trans`). `Patched.exists_patches` turns it into places in the output. Main statement:
`relocation_sound`.
-/

namespace Assembler

/-! ## Patching -/

/-- Bytes with others in place of those from `place` on. -/
def overwrite (bytes : List UInt8) (place : Nat) (field : List UInt8) : List UInt8 :=
  bytes.take place ++ field ++ bytes.drop (place + field.length)

/-- The bytes that the field of a relocation receives in a section that starts at `start`, for a
symbol at `S`. -/
def Relocation.linkedBytes (r : Relocation) (S start : Word) : List UInt8 :=
  (r.linkedValue S (start + r.offset)).leBytes r.size

/-- Fills in the fields of relocations, each at its place. -/
def patchAll (S start : Word) (bytes : List UInt8) (patches : List (Relocation × Nat)) :
    List UInt8 :=
  patches.foldl (fun bytes p => overwrite bytes p.2 (p.1.linkedBytes S start)) bytes

@[simp]
theorem Relocation.length_linkedBytes (r : Relocation) (S start : Word) :
    (r.linkedBytes S start).length = r.size.bytes := by
  simp [linkedBytes]

theorem length_overwrite {bytes field : List UInt8} {place : Nat}
    (h : place + field.length ≤ bytes.length) :
    (overwrite bytes place field).length = bytes.length := by
  simp only [overwrite, List.length_append, List.length_take, List.length_drop]
  omega

theorem overwrite_append_right {a field : List UInt8} {place : Nat}
    (h : place + field.length ≤ a.length) (b : List UInt8) :
    overwrite (a ++ b) place field = overwrite a place field ++ b := by
  simp only [overwrite]
  rw [List.take_append_of_le_length (by omega), List.drop_append_of_le_length h,
    List.append_assoc, List.append_assoc, List.append_assoc]

theorem overwrite_append_left (a b field : List UInt8) (place : Nat) :
    overwrite (a ++ b) (place + a.length) field = a ++ overwrite b place field := by
  simp only [overwrite]
  rw [Nat.add_comm place, List.take_length_add_append, Nat.add_assoc,
    List.drop_length_add_append, List.append_assoc, List.append_assoc, List.append_assoc]

section PatchAll

variable {S start : Word}

/-- Fields in the first part are filled in there. -/
theorem patchAll_append_right {a : List UInt8} {patches : List (Relocation × Nat)}
    (h : ∀ p ∈ patches, p.2 + p.1.size.bytes ≤ a.length) (b : List UInt8) :
    patchAll S start (a ++ b) patches = patchAll S start a patches ++ b := by
  induction patches generalizing a with
  | nil => rfl
  | cons p patches ih =>
    have hp : p.2 + (p.1.linkedBytes S start).length ≤ a.length := by
      simpa using h p List.mem_cons_self
    simp only [patchAll, List.foldl_cons] at ih ⊢
    rw [overwrite_append_right hp]
    apply ih
    intro q hq
    rw [length_overwrite hp]
    exact h q (List.mem_cons_of_mem p hq)

/-- Fields behind a first part are filled in there. -/
theorem patchAll_append_left (a b : List UInt8) (patches : List (Relocation × Nat)) :
    patchAll S start (a ++ b) (patches.map fun p => (p.1, p.2 + a.length)) =
      a ++ patchAll S start b patches := by
  induction patches generalizing b with
  | nil => rfl
  | cons p patches ih =>
    simp only [patchAll, List.map_cons, List.foldl_cons] at ih ⊢
    rw [overwrite_append_left, ih]

end PatchAll

/-- What two runs hand over from `cursor` on, with the relocations that the one lists: the same
bytes, but for the fields of relocations against `id`. These are zero in the one, and in the other
what the relocation asks for. -/
inductive Patched (id : SymbolId) (S start : Word) :
    Word → List Relocation → List UInt8 → List UInt8 → Prop
  | same {cursor : Word} {new : List Relocation} (h : ∀ r ∈ new, r.target ≠ id)
      (bytes : List UInt8) : Patched id S start cursor new bytes bytes
  | field {r : Relocation} (h : r.target = id) :
      Patched id S start (start + r.offset) [r] ((0 : Word).leBytes r.size)
        (r.linkedBytes S start)
  | append {cursor : Word} {new new' : List Relocation} {a a' b b' : List UInt8}
      (first : Patched id S start cursor new a a')
      (rest : Patched id S start (cursor + .ofNat a.length) new' b b') :
      Patched id S start cursor (new ++ new') (a ++ b) (a' ++ b')

/-- The one output becomes the other when every field of a relocation against `id` is filled in. The
fields lie where the relocations say, one after the other. -/
theorem Patched.exists_patches {id : SymbolId} {S start cursor : Word} {new : List Relocation}
    {bytes bytes' : List UInt8} (h : Patched id S start cursor new bytes bytes') :
    bytes'.length = bytes.length ∧ ∃ patches : List (Relocation × Nat),
      patches.map Prod.fst = new.filter (·.target = id) ∧
      (∀ p ∈ patches, start + p.1.offset = cursor + .ofNat p.2 ∧
        p.2 + p.1.size.bytes ≤ bytes.length) ∧
      patches.Pairwise (fun p q => p.2 + p.1.size.bytes ≤ q.2) ∧
      bytes' = patchAll S start bytes patches := by
  induction h with
  | same h bytes =>
    refine ⟨rfl, [], ?_, by simp, .nil, rfl⟩
    rw [eq_comm, List.map_nil, List.filter_eq_nil_iff]
    simpa using h
  | field h =>
    rename_i r
    refine ⟨by simp, [(r, 0)], by simp [h], ?_, List.pairwise_singleton _ _, ?_⟩
    · simp [Word.ofNat]
    · simp [patchAll, overwrite]
  | append _ _ ihfirst ihrest =>
    rename_i cursor new new' a a' b b' _ _
    obtain ⟨hlen, ps, hps, hpsin, hpsorder, hpatch⟩ := ihfirst
    obtain ⟨hlen', qs, hqs, hqsin, hqsorder, hpatch'⟩ := ihrest
    -- the places of the second part move behind the first
    refine ⟨by simp [hlen, hlen'], ps ++ qs.map (fun q => (q.1, q.2 + a.length)), ?_, ?_, ?_, ?_⟩
    · rw [List.map_append, hps, List.filter_append, ← hqs, List.map_map]
      rfl
    · intro p hp
      rcases List.mem_append.1 hp with hp | hp
      · obtain ⟨hplace, hle⟩ := hpsin p hp
        exact ⟨hplace, by rw [List.length_append]; omega⟩
      · obtain ⟨q, hq, rfl⟩ := List.mem_map.1 hp
        obtain ⟨hplace, hle⟩ := hqsin q hq
        dsimp only
        refine ⟨?_, by rw [List.length_append]; omega⟩
        rw [hplace, Nat.add_comm q.2, Word.ofNat_add, BitVec.add_assoc]
    · rw [List.pairwise_append]
      refine ⟨hpsorder, ?_, ?_⟩
      · rw [List.pairwise_map]
        refine hqsorder.imp ?_
        intro p q hpq
        dsimp only
        omega
      · intro p hp q hq
        obtain ⟨q, -, rfl⟩ := List.mem_map.1 hq
        have hle := (hpsin p hp).2
        omega
    · rw [patchAll, List.foldl_append]
      show _ = patchAll S start (patchAll S start (a ++ b) ps) _
      rw [patchAll_append_right (fun p hp => (hpsin p hp).2), ← hpatch, ← hlen,
        patchAll_append_left, ← hpatch']

/-! ## Two runs -/

namespace Linked

variable {id : SymbolId} {S : Word} {ctx other : Context}

theorem move (h : Linked id S ctx other) (address : Word) :
    Linked id S { ctx with address := address } { other with address := address } :=
  ⟨rfl, h.current, h.imported, h.defined, h.length, h.get?, h.idOf?, h.start⟩

end Linked

/-- Two runs, from `ctx` to `after` with the import and from `other` to `after'` with the
definition, hand over `bytes` and `bytes'` from `cursor` on. -/
structure Tracks (id : SymbolId) (S start cursor : Word) (ctx after other after' : Context)
    (bytes bytes' : List UInt8) : Prop where
  linked : Linked id S after after'
  sectionStart : after.sectionStart = start
  patched : ∃ new : List Relocation, after.relocations = ctx.relocations ++ new ∧
    after'.relocations = other.relocations ++ new.filter (·.target ≠ id) ∧
    Patched id S start cursor new bytes bytes'

section Runs

variable {id : SymbolId} {S start : Word}

/-- Runs that leave the tables alone hand over the same bytes. -/
theorem Tracks.same {ctx other : Context} (h : Linked id S ctx other)
    (hstart : ctx.sectionStart = start) (cursor : Word) (bytes : List UInt8) :
    Tracks id S start cursor ctx ctx other other bytes bytes :=
  ⟨h, hstart, [], by simp, by simp, .same (by simp) bytes⟩

theorem Tracks.trans {cursor : Word} {ctx mid after other mid' after' : Context}
    {a a' b b' : List UInt8} (hfirst : Tracks id S start cursor ctx mid other mid' a a')
    (hrest : Tracks id S start (cursor + .ofNat a.length) mid after mid' after' b b') :
    Tracks id S start cursor ctx after other after' (a ++ b) (a' ++ b') := by
  obtain ⟨new, hnew, hnew', hpatched⟩ := hfirst.patched
  obtain ⟨more, hmore, hmore', hpatched'⟩ := hrest.patched
  refine ⟨hrest.linked, hrest.sectionStart, new ++ more, ?_, ?_, hpatched.append hpatched'⟩
  · rw [hmore, hnew, appendList_appendList]
  · rw [hmore', hnew', appendList_appendList, List.filter_append]

/-- One field, written in both runs. -/
theorem Field.write_tracks {f : Field} (hf : f.expr.IsFunctionFree) {address stop : Word}
    {wrap : EvalError → AssemblyError} {s t s' t' : Emission} {n n' : Nat}
    (hlinked : Linked id S s.context s'.context) (hstart : s.context.sectionStart = start)
    (h : f.write address stop wrap s = .ok n t) (h' : f.write address stop wrap s' = .ok n' t') :
    n = f.size.bytes ∧ n' = f.size.bytes ∧ ∃ bytes bytes', bytes.length = f.size.bytes ∧
      Emit.Writes (f.write address stop wrap) s n t bytes ∧
      Emit.Writes (f.write address stop wrap) s' n' t' bytes' ∧
      Tracks id S start address s.context t.context s'.context t'.context bytes bytes' := by
  obtain ⟨rfl, v, hv, hw⟩ := write_writes h
  obtain ⟨rfl, v', hv', hw'⟩ := write_writes h'
  obtain ⟨u, after', hu, hafter, hsame, new, hnew, hnew', hcase⟩ := settle_linked hlinked hf hv
  -- settling has one result, which is that of the second run
  rw [hv'] at hu
  cases hu
  refine ⟨rfl, rfl, _, _, v.length_leBytes f.size, hw, hw', hafter, hsame.trans hstart, new, hnew,
    hnew', ?_⟩
  rcases hcase with ⟨r, rfl, htarget, haddress, hsize, rfl, rfl⟩ | ⟨rfl, hother⟩
  · rw [hstart] at haddress
    subst haddress
    rw [← hsize]
    exact .field htarget
  · exact .same hother _

/-- The fields of an instruction, written in both runs. -/
theorem Encoded.writeFields_tracks {e : Encoded} {base stop : Word} {fields : List Field}
    (hfields : ∀ f ∈ fields, f.expr.IsFunctionFree) {written n n' : Nat} {s t s' t' : Emission}
    (hlinked : Linked id S s.context s'.context) (hstart : s.context.sectionStart = start)
    (h : e.writeFields base stop written fields s = .ok n t)
    (h' : e.writeFields base stop written fields s' = .ok n' t') :
    ∃ bytes bytes', Emit.Writes (e.writeFields base stop written fields) s n t bytes ∧
      Emit.Writes (e.writeFields base stop written fields) s' n' t' bytes' ∧
      Tracks id S start (base + .ofNat written) s.context t.context s'.context t'.context
        bytes bytes' := by
  induction fields generalizing written s s' with
  | nil =>
    cases h
    cases h'
    exact ⟨[], [], .pure _ _, .pure _ _, .same hlinked hstart _ _⟩
  | cons f fields ih =>
    rw [writeFields, bind_eq_ok] at h h'
    obtain ⟨count, u, hf, hrest⟩ := h
    obtain ⟨count', u', hf', hrest'⟩ := h'
    obtain ⟨rfl, rfl, a, a', hlen, hw, hw', hfirst⟩ :=
      Field.write_tracks (hfields f List.mem_cons_self) hlinked hstart hf hf'
    obtain ⟨b, b', hwb, hwb', hlater⟩ := ih (fun g hg => hfields g (List.mem_cons_of_mem f hg))
      hfirst.linked hfirst.sectionStart hrest hrest'
    refine ⟨a ++ b, a' ++ b', ?_, ?_, hfirst.trans ?_⟩
    · rw [writeFields]
      exact hw.bind hwb
    · rw [writeFields]
      exact hw'.bind hwb'
    · rwa [hlen, BitVec.add_assoc, ← Word.ofNat_add]

namespace Item

/-- Every expression of the item is spelled out. -/
def IsFunctionFree : Item → Prop
  | .data field => field.expr.IsFunctionFree
  | .instruction encoded => ∀ f ∈ encoded.fields, f.expr.IsFunctionFree
  | _ => True

/-- A run of known bytes, put in both runs. -/
theorem put_tracks {run : Run} {s t s' t' : Emission} {n n' : Nat}
    (hlinked : Linked id S s.context s'.context) (hstart : s.context.sectionStart = start)
    (h : Emit.put run s = .ok n t) (h' : Emit.put run s' = .ok n' t') (cursor : Word) :
    Emit.Writes (Emit.put run) s n t run.toList ∧ Emit.Writes (Emit.put run) s' n' t' run.toList ∧
      Tracks id S start cursor s.context t.context s'.context t'.context run.toList run.toList := by
  refine ⟨Emit.put_writes h, Emit.put_writes h', ?_⟩
  obtain ⟨-, hctx, -⟩ := Emit.put_eq_ok.1 h
  obtain ⟨-, hctx', -⟩ := Emit.put_eq_ok.1 h'
  rw [hctx, hctx']
  exact .same hlinked hstart cursor run.toList

/-- An item is written with the import and with the definition to bytes that track each other. -/
theorem write_tracks {item : Item} (hitem : item.IsFunctionFree) {base stop : Word}
    {s t s' t' : Emission} {n n' : Nat} (hlinked : Linked id S s.context s'.context)
    (hstart : s.context.sectionStart = start) (h : item.write base stop s = .ok n t)
    (h' : item.write base stop s' = .ok n' t') :
    ∃ bytes bytes', Emit.Writes (item.write base stop) s n t bytes ∧
      Emit.Writes (item.write base stop) s' n' t' bytes' ∧
      Tracks id S start base s.context t.context s'.context t'.context bytes bytes' := by
  cases item with
  | raw run => exact ⟨_, _, put_tracks hlinked hstart h h' base⟩
  | reserve count => exact ⟨_, _, put_tracks hlinked hstart h h' base⟩
  | data field =>
    obtain ⟨-, -, bytes, bytes', -, hw, hw', htracks⟩ :=
      Field.write_tracks hitem hlinked hstart h h'
    exact ⟨bytes, bytes', hw, hw', htracks⟩
  | instruction encoded =>
    rw [write, bind_eq_ok] at h h'
    obtain ⟨count, u, hput, hfields⟩ := h
    obtain ⟨count', u', hput', hfields'⟩ := h'
    obtain ⟨hw, hw', hfirst⟩ := put_tracks hlinked hstart hput hput' base
    obtain ⟨-, -, rfl⟩ := Emit.put_eq_ok.1 hput
    obtain ⟨-, -, rfl⟩ := Emit.put_eq_ok.1 hput'
    obtain ⟨b, b', hwb, hwb', hrest⟩ := Encoded.writeFields_tracks hitem hfirst.linked
      hfirst.sectionStart hfields hfields'
    exact ⟨encoded.bytes ++ b, encoded.bytes ++ b', hw.bind hwb, hw'.bind hwb', hfirst.trans hrest⟩

/-- An item is written with the import and with the definition to bytes that track each other, and
the cursors stay together. -/
theorem emit_tracks {item : Item} (hitem : item.IsFunctionFree) {s t s' t' : Emission} {n n' : Nat}
    (hlinked : Linked id S s.context s'.context) (hstart : s.context.sectionStart = start)
    (h : item.emit s = .ok n t) (h' : item.emit s' = .ok n' t') :
    ∃ bytes bytes', Emit.Writes item.emit s n t bytes ∧ Emit.Writes item.emit s' n' t' bytes' ∧
      Tracks id S start s.context.address s.context t.context s'.context t'.context
        bytes bytes' := by
  obtain ⟨u, hu, rfl⟩ := emit_eq_ok.1 h
  obtain ⟨u', hu', rfl⟩ := emit_eq_ok.1 h'
  rw [hlinked.address] at hu' ⊢
  obtain ⟨bytes, bytes', hw, hw', htracks⟩ := write_tracks hitem hlinked hstart hu hu'
  refine ⟨bytes, bytes', writes_emit hw, ?_, htracks.linked.move _, htracks.sectionStart,
    htracks.patched⟩
  rw [← hlinked.address] at hw' ⊢
  exact writes_emit hw'

/-- Items one after the other, written in both runs. -/
theorem emitFrom_tracks {items : List Item} (hitems : ∀ item ∈ items, item.IsFunctionFree)
    {s t s' t' : Emission} {count n n' : Nat} (hlinked : Linked id S s.context s'.context)
    (hstart : s.context.sectionStart = start) (h : emitFrom count items s = .ok n t)
    (h' : emitFrom count items s' = .ok n' t') :
    ∃ bytes bytes', Emit.Writes (emitFrom count items) s n t bytes ∧
      Emit.Writes (emitFrom count items) s' n' t' bytes' ∧
      Tracks id S start s.context.address s.context t.context s'.context t'.context
        bytes bytes' := by
  induction items generalizing count s s' with
  | nil =>
    cases h
    cases h'
    exact ⟨[], [], .pure _ _, .pure _ _, .same hlinked hstart _ _⟩
  | cons item items ih =>
    rw [emitFrom_cons, bind_eq_ok] at h h'
    obtain ⟨m, u, hitem, hrest⟩ := h
    obtain ⟨m', u', hitem', hrest'⟩ := h'
    obtain ⟨a, a', hw, hw', hfirst⟩ :=
      emit_tracks (hitems item List.mem_cons_self) hlinked hstart hitem hitem'
    obtain ⟨hm, haddress, own, hlen, hown⟩ := emit_writes hitem
    obtain ⟨hm', -⟩ := emit_writes hitem'
    subst hm hm'
    obtain ⟨b, b', hwb, hwb', hlater⟩ := ih (fun x hx => hitems x (List.mem_cons_of_mem item hx))
      hfirst.linked hfirst.sectionStart hrest hrest'
    refine ⟨a ++ b, a' ++ b', ?_, ?_, hfirst.trans ?_⟩
    · rw [emitFrom_cons]
      exact hw.bind hwb
    · rw [emitFrom_cons]
      exact hw'.bind hwb'
    · -- the cursor of the rest is the address that the first item leaves
      rwa [← hw.output, hown.output, hlen, ← haddress]

end Item

end Runs

/-! ## Soundness -/

/-- A symbol that is an import, in its place defined in a section. -/
theorem linked_withSymbol {ctx : Context} {x defined : Symbol} {id : SymbolId}
    (hid : ctx.symbols.idOf? defined.identifier = some id) (hx : ctx.symbols.get? id = some x)
    (himport : x.home = none ∧ x.isAbsolute = false ∧ x.value = 0)
    (hdefined : defined.home.isSome ∧ defined.isAbsolute = false)
    (hstart : ∀ n, ctx.current = some n → defined.identifier ≠ Context.startName n) :
    Linked id defined.value ctx (ctx.withSymbol defined) := by
  have hsymbols : (ctx.withSymbol defined).symbols = ⟨ctx.symbols.symbols.set id defined⟩ := by
    show (ctx.symbols.insert defined).2 = _
    rw [SymbolTable.insert_of_some hid]
  have hlt : id < ctx.symbols.symbols.length := (List.getElem?_eq_some_iff.1 hx).1
  refine ⟨rfl, rfl, ⟨x, hx, himport⟩, ⟨defined, ?_, hdefined.1, hdefined.2, rfl⟩, ?_, ?_, ?_, ?_⟩
  · rw [hsymbols]
    exact List.getElem?_set_self hlt
  · rw [hsymbols]
    exact List.length_set
  · intro j hj
    rw [hsymbols]
    exact List.getElem?_set_ne (Ne.symm hj)
  · intro identifier
    rw [hsymbols, SymbolTable.idOf?_set hid]
  · intro hsame
    obtain ⟨n, hn, hname⟩ := Option.bind_eq_some_iff.1 hsame
    -- the start symbol would have the identifier of `defined`, as both have its id
    obtain ⟨y, hy, hyname⟩ := SymbolTable.exists_get?_of_idOf? hid
    obtain ⟨z, hz, hzname⟩ := SymbolTable.exists_get?_of_idOf? hname
    rw [hy, Option.some.injEq] at hz
    subst hz
    exact hstart n hn (by rw [← hyname, hzname])

/-- A symbol is an import in `ctx`, without a section and at zero, and not the start of the current
section. Items are written from the same cursor in `ctx` and where the symbol is defined instead,
and both runs succeed. Then the second output is the first with the field of every relocation
against the symbol filled in, and the second run lists the other relocations only.

A field lies where its relocation says, counted from the cursor. In an output that addresses can
tell apart there is one such place. -/
theorem relocation_sound {ctx : Context} {x defined : Symbol} {id : SymbolId}
    (hid : ctx.symbols.idOf? defined.identifier = some id) (hx : ctx.symbols.get? id = some x)
    (himport : x.home = none ∧ x.isAbsolute = false ∧ x.value = 0)
    (hdefined : defined.home.isSome ∧ defined.isAbsolute = false)
    (hstart : ∀ n, ctx.current = some n → defined.identifier ≠ Context.startName n)
    {items : List Item} (hitems : ∀ item ∈ items, item.IsFunctionFree) {sink sink' : Sink}
    {t t' : Emission} {n n' : Nat} (h : Item.emitAll items ⟨ctx, sink⟩ = .ok n t)
    (h' : Item.emitAll items ⟨ctx.withSymbol defined, sink'⟩ = .ok n' t') :
    ∃ (out out' : List UInt8) (new : List Relocation) (patches : List (Relocation × Nat)),
      t.sink = sink.push out ∧ out = Emit.output (Item.emitAll items) ctx ∧
      t'.sink = sink'.push out' ∧
      out' = Emit.output (Item.emitAll items) (ctx.withSymbol defined) ∧
      t.context.relocations = ctx.relocations ++ new ∧
      t'.context.relocations = ctx.relocations ++ new.filter (·.target ≠ id) ∧
      patches.map Prod.fst = new.filter (·.target = id) ∧
      (∀ p ∈ patches, ctx.sectionStart + p.1.offset = ctx.address + .ofNat p.2 ∧
        p.2 + p.1.size.bytes ≤ out.length ∧
        (totalLength items < 2 ^ 128 →
          p.2 = (ctx.sectionStart + p.1.offset - ctx.address).toNat)) ∧
      patches.Pairwise (fun p q => p.2 + p.1.size.bytes ≤ q.2) ∧
      out' = patchAll defined.value ctx.sectionStart out patches := by
  rw [Item.emitAll_eq_emitFrom] at h h' ⊢
  have hlinked := linked_withSymbol hid hx himport hdefined hstart
  obtain ⟨out, out', hw, hw', htracks⟩ := Item.emitFrom_tracks hitems hlinked rfl h h'
  obtain ⟨new, hnew, hnew', hpatched⟩ := htracks.patched
  obtain ⟨-, patches, hmap, hplaces, horder, hout⟩ := hpatched.exists_patches
  obtain ⟨-, -, bytes, hlen, hbytes⟩ := Item.emitFrom_writes h
  have houtlen : out.length = totalLength items := by
    rw [← hw.output, hbytes.output, hlen]
  refine ⟨out, out', new, patches, hw.sink, hw.output.symm, hw'.sink, hw'.output.symm, hnew, hnew',
    hmap, ?_, horder, hout⟩
  intro p hp
  obtain ⟨hplace, hle⟩ := hplaces p hp
  refine ⟨hplace, hle, ?_⟩
  intro hshort
  -- the word that leads from the cursor to the field
  have hback : ctx.sectionStart + p.1.offset - ctx.address = .ofNat p.2 := by
    rw [hplace, BitVec.add_comm, BitVec.add_sub_cancel]
  rw [hback, Word.ofNat, BitVec.toNat_ofNat, Nat.mod_eq_of_lt (by omega)]

/-- A section at `0x100`, with an import. -/
def importingContext : Context :=
  ((Context.new .bit64).openSection 0 0x100).2.withSymbol (.declare "puts" .imported)

/-- The import, defined in another section. -/
def definedImport : Symbol :=
  { Symbol.declare "puts" .plain with home := some 1, value := 0x2000 }

/-- A displacement that counts from behind the immediate after it. -/
def displacementBeforeImmediate : Item :=
  .instruction
    { text := "mov dword [rel puts], 5"
      bytes := [0xC7, 0x05]
      fields := [.relative (.reference "puts") .bit32, .absolute (.constant 5) .bit32] }

/-- A distance that stands before an immediate is patched for the end of the instruction, not of the
field. -/
theorem relocation_sound_displacementBeforeImmediate :
    ∃ patches : List (Relocation × Nat),
      patches.map Prod.fst = [⟨1, 0, 2, -8, .pcRelative, .bit32⟩] ∧ (∀ p ∈ patches, p.2 = 2) ∧
      Emit.output (Item.emitAll [displacementBeforeImmediate])
          (importingContext.withSymbol definedImport) =
        patchAll 0x2000 0x100
          (Emit.output (Item.emitAll [displacementBeforeImmediate]) importingContext) patches := by
  obtain ⟨t, hrun, hrelocations⟩ : ∃ t,
      Item.emitAll [displacementBeforeImmediate] ⟨importingContext, Sink.new none⟩ = .ok 10 t ∧
        t.context.relocations = #[⟨1, 0, 2, -8, .pcRelative, .bit32⟩] :=
    ⟨_, rfl, by decide +kernel⟩
  obtain ⟨t', hrun'⟩ : ∃ t', Item.emitAll [displacementBeforeImmediate]
      ⟨importingContext.withSymbol definedImport, Sink.new none⟩ = .ok 10 t' := ⟨_, rfl⟩
  have hname : ∀ n, definedImport.identifier ≠ Context.startName n := by
    intro n hn
    have hhead := congrArg (fun s => s.toList.head?) hn
    simp [Context.startName, definedImport, Symbol.declare] at hhead
  have hfree : ∀ item ∈ [displacementBeforeImmediate], item.IsFunctionFree := by
    simp [displacementBeforeImmediate, Item.IsFunctionFree, Field.relative, Field.absolute,
      Expr.IsFunctionFree]
  have hid : importingContext.symbols.idOf? definedImport.identifier = some 1 := by decide +kernel
  have hx : importingContext.symbols.get? 1 = some (.declare "puts" .imported) := by decide +kernel
  obtain ⟨out, out', new, patches, -, hout, -, hout', hnew, -, hmap, hplaces, -, hpatched⟩ :=
    relocation_sound hid hx ⟨rfl, rfl, rfl⟩ ⟨rfl, rfl⟩ (fun n _ => hname n) hfree hrun hrun'
  obtain rfl : new = [⟨1, 0, 2, -8, .pcRelative, .bit32⟩] := by
    have hempty : importingContext.relocations = #[] := rfl
    rw [hrelocations, hempty] at hnew
    simpa using (congrArg Array.toList hnew).symm
  refine ⟨patches, hmap, ?_, by rw [← hout, ← hout', hpatched]; rfl⟩
  intro p hp
  have hfirst : p.1 ∈ patches.map Prod.fst := List.mem_map_of_mem hp
  rw [hmap] at hfirst
  obtain ⟨-, -, hplace⟩ := hplaces p hp
  rw [hplace (by decide +kernel), List.mem_singleton.1 hfirst]
  decide +kernel

end Assembler
