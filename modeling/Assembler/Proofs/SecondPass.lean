import Assembler.ObjectFile
import Assembler.Proofs.Emission
import Assembler.Proofs.FirstPass

/-!
# What the second pass does

A section is written in three parts: it is entered (the cursor moves to its start, and the image is
filled up to there), its items follow one after the other, and it is left again.
`Section.emit_apply` says so for a section that stops where its items do; the check of its length
then always passes.

`emitSections_append` cuts the run over all sections in two. `Emit.Writes` holds of the whole run,
so that what it hands over does not depend on the sink either.
-/

namespace Assembler

/-- A step that starts with a change of the context writes what it writes after it. -/
theorem Emit.Writes.of_context {α : Type} {m m' : Emit α} {f : Context → Context} {s t : Emission}
    {a : α} {bytes : List UInt8} (h : Emit.Writes m' { s with context := f s.context } a t bytes)
    (hm : ∀ u : Emission, m u = m' { u with context := f u.context }) :
    Emit.Writes m s a t bytes := by
  refine ⟨h.sink, ?_⟩
  intro kept
  rw [hm]
  exact h.replay kept

/-! ## Sections -/

/-- Number of bytes of the gap before a section of the image. -/
def gapBefore (cursor : Option Word) (start : Word) : Nat :=
  match cursor with
  | none => 0
  | some stop => span stop start

namespace Section

/-- Enters a section: moves the cursor to its start, and fills the image up to there. What follows
goes to no image in a section without one. -/
def enter (s : Section) (id : SectionId) (p : PlacedSection) (cursor : Option Word) :
    Emit Nat := do
  modify fun t => { t with context := t.context.enterSection id p.start }
  if s.kind = .bss then
    modify fun t => { t with sink := .discard }
    return 0
  else emitGap cursor p.start

/-- The state after a section: one without an image gives the sink back as it was. -/
def leave (s : Section) (before after : Emission) : Emission :=
  if s.kind = .bss then { after with sink := before.sink } else after

/-- A gap is filled with zeros. -/
theorem emitGap_writes {cursor : Option Word} {start : Word} {s t : Emission} {n : Nat}
    (h : emitGap cursor start s = .ok n t) :
    n = gapBefore cursor start ∧ t.context = s.context ∧
      Emit.Writes (emitGap cursor start) s n t (List.replicate n 0) := by
  unfold emitGap at h ⊢
  cases cursor with
  | none =>
    cases h
    exact ⟨rfl, rfl, .pure _ _⟩
  | some stop =>
    dsimp only at h ⊢
    split at h
    next hgap =>
      cases h
      rw [if_pos hgap]
      exact ⟨hgap.symm, rfl, .pure _ _⟩
    next hgap =>
      rw [if_neg hgap]
      have hw := Emit.put_writes h
      obtain ⟨-, hctx, rfl⟩ := Emit.put_eq_ok.1 h
      exact ⟨rfl, hctx, hw⟩

theorem emitGap_isOfWriting {cursor : Option Word} {start : Word} {s t : Emission}
    {e : AssemblyError} (h : emitGap cursor start s = .error e t) : e.IsOfWriting := by
  unfold emitGap at h
  cases cursor with
  | none => cases h
  | some stop =>
    dsimp only at h
    split at h
    · cases h
    · rw [Emit.put_error h]
      trivial

theorem enter_of_bss {s : Section} (hs : s.kind = .bss) (id : SectionId) (p : PlacedSection)
    (cursor : Option Word) (st : Emission) :
    s.enter id p cursor st = .ok 0 ⟨st.context.enterSection id p.start, .discard⟩ := by
  unfold enter
  rw [if_pos hs]
  rfl

theorem enter_of_ne_bss {s : Section} (hs : s.kind ≠ .bss) (id : SectionId) (p : PlacedSection)
    (cursor : Option Word) (st : Emission) :
    s.enter id p cursor st =
      emitGap cursor p.start { st with context := st.context.enterSection id p.start } := by
  unfold enter
  rw [if_neg hs]
  rfl

/-- A section is entered at its start. -/
theorem enter_context {s : Section} {id : SectionId} {p : PlacedSection} {cursor : Option Word}
    {st t : Emission} {gap : Nat} (h : s.enter id p cursor st = .ok gap t) :
    t.context = st.context.enterSection id p.start := by
  by_cases hs : s.kind = .bss
  · rw [enter_of_bss hs] at h
    cases h
    rfl
  · rw [enter_of_ne_bss hs] at h
    exact (emitGap_writes h).2.1

theorem enter_isOfWriting {s : Section} {id : SectionId} {p : PlacedSection}
    {cursor : Option Word} {st t : Emission} {e : AssemblyError}
    (h : s.enter id p cursor st = .error e t) : e.IsOfWriting := by
  by_cases hs : s.kind = .bss
  · rw [enter_of_bss hs] at h
    cases h
  · rw [enter_of_ne_bss hs] at h
    exact emitGap_isOfWriting h

/-- A section that stops where its items do is entered, written item by item, and left. The check of
its length always passes. -/
theorem emit_apply {s : Section} {p : PlacedSection} (hp : p.IsFilled) (id : SectionId)
    (cursor : Option Word) (st : Emission) :
    s.emit id p cursor st =
      match (s.enter id p cursor >>= fun gap => Item.emitFrom gap p.items) st with
      | .error e t => .error e (s.leave st t)
      | .ok n t => .ok (if s.kind = .bss then 0 else n) (s.leave st t) := by
  rw [bind_apply]
  unfold emit
  by_cases hs : s.kind = .bss
  · -- the items go to a sink that is dropped afterwards
    rw [enter_of_bss hs]
    simp only [leave, hs, ↓reduceIte, bind_apply, modify_apply, pure_apply, get_apply,
      Emit.discarding, Item.emitAll_eq_emitFrom]
    cases hrun : Item.emitFrom 0 p.items ⟨st.context.enterSection id p.start, .discard⟩ with
    | error e t => rfl
    | ok n t =>
      have hstop : t.context.address = p.stop := by
        rw [(Item.emitFrom_writes hrun).2.1, hp]
        rfl
      simp [hstop]
  · rw [enter_of_ne_bss hs]
    simp only [leave, hs, ↓reduceIte, bind_apply, modify_apply]
    cases hgap : emitGap cursor p.start ⟨st.context.enterSection id p.start, st.sink⟩ with
    | error e t => rfl
    | ok gap u =>
      have hstart : u.context.address = p.start := by
        rw [(emitGap_writes hgap).2.1]
        rfl
      simp only [Item.emitAll_eq_emitFrom, get_apply]
      -- the program counts the items from zero and adds the gap
      rw [Item.emitFrom_count gap]
      cases hrun : Item.emitFrom 0 p.items u with
      | error e t => rfl
      | ok n t =>
        have hstop : t.context.address = p.stop := by
          rw [(Item.emitFrom_writes hrun).2.1, hp, hstart]
        simp [hstop]

theorem emit_isOfWriting {s : Section} {id : SectionId} {p : PlacedSection} (hp : p.IsFilled)
    {cursor : Option Word} {st t : Emission} {e : AssemblyError}
    (h : s.emit id p cursor st = .error e t) : e.IsOfWriting := by
  rw [emit_apply hp] at h
  split at h
  next hrun =>
    cases h
    rcases bind_eq_error.1 hrun with hrun | ⟨gap, u, -, hrun⟩
    · exact enter_isOfWriting hrun
    · exact Item.emitFrom_isOfWriting hrun
  · cases h

/-- A section without an image is written without a byte. -/
theorem emit_writes_bss {s : Section} (hs : s.kind = .bss) {id : SectionId} {p : PlacedSection}
    (hp : p.IsFilled) {cursor : Option Word} {st t : Emission} {n : Nat}
    (h : s.emit id p cursor st = .ok n t) :
    n = 0 ∧ Emit.Writes (s.emit id p cursor) st n t [] := by
  -- the sink is put aside: one equation for all of them
  have hrun : ∀ sink : Sink, s.emit id p cursor ⟨st.context, sink⟩ =
      match Item.emitFrom 0 p.items ⟨st.context.enterSection id p.start, Sink.discard⟩ with
      | .error e u => .error e ⟨u.context, sink⟩
      | .ok _ u => .ok 0 ⟨u.context, sink⟩ := by
    intro sink
    simp only [emit_apply hp, bind_apply, enter_of_bss hs, leave, hs, ↓reduceIte]
  rw [show st = ⟨st.context, st.sink⟩ from rfl, hrun] at h
  split at h
  next => cases h
  next u hu =>
    cases h
    refine ⟨rfl, by simp, ?_⟩
    intro kept
    rw [hrun, hu]
    simp

/-- A section of the image is written after the gap before it. -/
theorem emit_of_ne_bss {s : Section} (hs : s.kind ≠ .bss) {p : PlacedSection} (hp : p.IsFilled)
    (id : SectionId) (cursor : Option Word) (st : Emission) :
    s.emit id p cursor st =
      (emitGap cursor p.start >>= fun gap => Item.emitFrom gap p.items)
        { st with context := st.context.enterSection id p.start } := by
  simp only [emit_apply hp, bind_apply, enter_of_ne_bss hs, leave, hs, ↓reduceIte]
  split <;> simp_all

/-- A section of the image is written as zeros up to its start and what its items write from
there. -/
theorem emit_writes_items {s : Section} (hs : s.kind ≠ .bss) {id : SectionId} {p : PlacedSection}
    (hp : p.IsFilled) {cursor : Option Word} {st t : Emission} {n : Nat}
    (h : s.emit id p cursor st = .ok n t) :
    let own := Emit.output (Item.emitAll p.items) (st.context.enterSection id p.start)
    own.length = totalLength p.items ∧ n = gapBefore cursor p.start + own.length ∧
      Emit.Writes (s.emit id p cursor) st n t
        (List.replicate (gapBefore cursor p.start) 0 ++ own) := by
  intro own
  rw [emit_of_ne_bss hs hp, bind_eq_ok] at h
  obtain ⟨gap, u, hgap, hitems⟩ := h
  obtain ⟨rfl, hcontext, hfill⟩ := emitGap_writes hgap
  obtain ⟨rfl, -, bytes, hlen, hbytes⟩ := Item.emitFrom_writes hitems
  have hown : own = bytes := by
    rw [← hbytes.output, Item.output_emitFrom, hcontext]
  rw [hown, hlen]
  refine ⟨rfl, rfl, ?_⟩
  have hboth := hfill.bind (f := fun gap => Item.emitFrom gap p.items) hbytes
  exact hboth.of_context (f := (·.enterSection id p.start)) (emit_of_ne_bss hs hp id cursor)

theorem emit_writes {s : Section} (hs : s.kind ≠ .bss) {id : SectionId} {p : PlacedSection}
    (hp : p.IsFilled) {cursor : Option Word} {st t : Emission} {n : Nat}
    (h : s.emit id p cursor st = .ok n t) :
    ∃ bytes, bytes.length = totalLength p.items ∧ n = gapBefore cursor p.start + bytes.length ∧
      Emit.Writes (s.emit id p cursor) st n t
        (List.replicate (gapBefore cursor p.start) 0 ++ bytes) :=
  ⟨_, emit_writes_items hs hp h⟩

/-- Number of bytes that a section adds to the image, with the gap before it. -/
def imageLength (s : Section) (p : PlacedSection) (cursor : Option Word) : Nat :=
  if s.kind = .bss then 0 else gapBefore cursor p.start + totalLength p.items

/-- A section hands over as many bytes as it counts and adds to the image. -/
theorem emit_writes_imageLength {s : Section} {id : SectionId} {p : PlacedSection}
    (hp : p.IsFilled) {cursor : Option Word} {st t : Emission} {n : Nat}
    (h : s.emit id p cursor st = .ok n t) :
    n = s.imageLength p cursor ∧
      ∃ bytes, bytes.length = n ∧ Emit.Writes (s.emit id p cursor) st n t bytes := by
  unfold imageLength
  by_cases hs : s.kind = .bss
  · obtain ⟨rfl, hw⟩ := emit_writes_bss hs hp h
    exact ⟨(if_pos hs).symm, [], rfl, hw⟩
  · obtain ⟨own, hlen, rfl, hw⟩ := emit_writes hs hp h
    rw [if_neg hs, hlen]
    rw [hlen] at hw
    exact ⟨rfl, _, by rw [List.length_append, List.length_replicate, hlen], hw⟩

/-- A section of the image, cut at one of its items. -/
theorem emit_writes_at {s : Section} (hs : s.kind ≠ .bss) {id : SectionId} {p : PlacedSection}
    (hp : p.IsFilled) {i : Nat} {item : Item} (hi : p.items[i]? = some item)
    {cursor : Option Word} {st t : Emission} {n : Nat} (h : s.emit id p cursor st = .ok n t) :
    ∃ m u before after,
      (s.enter id p cursor >>= fun gap => Item.emitFrom gap (p.items.take i)) st = .ok m u ∧
      before.length = gapBefore cursor p.start + totalLength (p.items.take i) ∧
      (Emit.output item.emit u.context).length = item.length ∧
      Emit.Writes (s.emit id p cursor) st n t
        (before ++ Emit.output item.emit u.context ++ after) := by
  rw [emit_of_ne_bss hs hp, bind_eq_ok] at h
  obtain ⟨gap, v, hgap, hitems⟩ := h
  rw [Item.emitFrom_at hi, bind_eq_ok] at hitems
  obtain ⟨m, u, hmade, hitems⟩ := hitems
  obtain ⟨count, w, hitem, hrest⟩ := bind_eq_ok.1 hitems
  have hreach : (s.enter id p cursor >>= fun gap => Item.emitFrom gap (p.items.take i)) st =
      .ok m u := by
    rw [bind_eq_ok, enter_of_ne_bss hs]
    exact ⟨gap, v, hgap, hmade⟩
  obtain ⟨rfl, -, hfill⟩ := emitGap_writes hgap
  obtain ⟨-, -, made, hlen, hmade⟩ := Item.emitFrom_writes hmade
  obtain ⟨-, -, own, hownlen, hown⟩ := Item.emit_writes hitem
  obtain ⟨-, -, rest, -, hrest⟩ := Item.emitFrom_writes hrest
  refine ⟨m, u, List.replicate (gapBefore cursor p.start) 0 ++ made, rest, hreach, ?_,
    by rw [hown.output, hownlen], ?_⟩
  · simp [hlen]
  · -- the parts are put together from the inside, as the steps nest
    have hafter := hown.bind (f := fun n => Item.emitFrom (m + n) (p.items.drop (i + 1))) hrest
    have hitems := hmade.bind
      (f := fun m => item.emit >>= fun n => Item.emitFrom (m + n) (p.items.drop (i + 1))) hafter
    rw [← Item.emitFrom_at hi] at hitems
    have hall := hfill.bind (f := fun gap => Item.emitFrom gap p.items) hitems
    have hsection :=
      hall.of_context (f := (·.enterSection id p.start)) (emit_of_ne_bss hs hp id cursor)
    simpa only [hown.output, List.append_assoc] using hsection

end Section

namespace ObjectFile

/-- Where the image stops after sections, if it has begun. -/
def cursorAfter (cursor : Option Word) (l : List (Section × PlacedSection)) : Option Word :=
  l.foldl (fun cursor sp => if sp.1.kind = .bss then cursor else some sp.2.stop) cursor

@[simp]
theorem cursorAfter_nil (cursor : Option Word) : cursorAfter cursor [] = cursor := rfl

theorem cursorAfter_cons (cursor : Option Word) (s : Section) (p : PlacedSection)
    (l : List (Section × PlacedSection)) :
    cursorAfter cursor ((s, p) :: l) =
      cursorAfter (if s.kind = .bss then cursor else some p.stop) l := rfl

theorem cursorAfter_take_add_one {l : List (Section × PlacedSection)} {k : Nat} {s : Section}
    {p : PlacedSection} (h : l[k]? = some (s, p)) (cursor : Option Word) :
    cursorAfter cursor (l.take (k + 1)) =
      if s.kind = .bss then cursorAfter cursor (l.take k) else some p.stop := by
  rw [List.take_add_one, h]
  simp [cursorAfter, List.foldl_append]

theorem emitSections_cons {W : Type} [Writer W] (id : SectionId) (cursor : Option Word)
    (written : Nat) (s : Section) (p : PlacedSection) (l : List (Section × PlacedSection)) :
    (emitSections id cursor written ((s, p) :: l) : EmitTo W Nat) =
      s.emit id p cursor >>= fun count =>
        emitSections (id + 1) (if s.kind = .bss then cursor else some p.stop) (written + count) l :=
  rfl

/-- The run over sections, cut in two. -/
theorem emitSections_append (id : Nat) (cursor : Option Word) (written : Nat)
    (a b : List (Section × PlacedSection)) :
    (emitSections id cursor written (a ++ b) : Emit Nat) =
      emitSections id cursor written a >>= fun n =>
        emitSections (id + a.length) (cursorAfter cursor a) n b := by
  induction a generalizing id cursor written with
  | nil => simp [emitSections]
  | cons sp a ih =>
    obtain ⟨s, p⟩ := sp
    simp only [List.cons_append, emitSections_cons, ih, bind_assoc, cursorAfter_cons,
      List.length_cons]
    rw [show id + 1 + a.length = id + (a.length + 1) by omega]

/-- The run over sections, cut at one of them. -/
theorem emitSections_at {l : List (Section × PlacedSection)} {k : Nat} {s : Section}
    {p : PlacedSection} (h : l[k]? = some (s, p)) (cursor : Option Word) (written : Nat) :
    (emitSections 0 cursor written l : Emit Nat) =
      emitSections 0 cursor written (l.take k) >>= fun n =>
        s.emit k p (cursorAfter cursor (l.take k)) >>= fun count =>
          emitSections (k + 1) (cursorAfter cursor (l.take (k + 1))) (n + count)
            (l.drop (k + 1)) := by
  have hlen : (l.take k).length = k := by
    rw [List.length_take, Nat.min_eq_left (Nat.le_of_lt (List.getElem?_eq_some_iff.1 h).1)]
  conv => lhs; rw [eq_take_append_cons_drop h]
  rw [emitSections_append]
  simp only [emitSections_cons, hlen, Nat.zero_add, cursorAfter_take_add_one h]

/-- A run over sections that succeeds hands over the bytes that it counts. -/
theorem emitSections_writes {l : List (Section × PlacedSection)} (hl : ∀ sp ∈ l, sp.2.IsFilled)
    {id : SectionId} {cursor : Option Word} {written n : Nat} {st t : Emission}
    (h : emitSections id cursor written l st = .ok n t) :
    ∃ bytes, n = written + bytes.length ∧
      Emit.Writes (emitSections id cursor written l) st n t bytes := by
  induction l generalizing id cursor written st with
  | nil =>
    cases h
    exact ⟨[], rfl, .pure _ _⟩
  | cons sp l ih =>
    obtain ⟨s, p⟩ := sp
    rw [emitSections_cons, bind_eq_ok] at h
    obtain ⟨count, u, hsection, hrest⟩ := h
    obtain ⟨-, own, hcount, hw⟩ :=
      Section.emit_writes_imageLength (hl (s, p) List.mem_cons_self) hsection
    obtain ⟨bytes, rfl, hw'⟩ := ih (fun x hx => hl x (List.mem_cons_of_mem (s, p) hx)) hrest
    refine ⟨own ++ bytes, ?_, hw.bind hw'⟩
    rw [List.length_append, hcount, Nat.add_assoc]

/-- Number of bytes of the image before section `n` of a list, if the image stops at `cursor` so
far. -/
def imageStart (cursor : Option Word) : List (Section × PlacedSection) → Nat → Nat
  | [], _ => 0
  | (_, p) :: _, 0 => gapBefore cursor p.start
  | (s, p) :: l, n + 1 =>
    s.imageLength p cursor + imageStart (if s.kind = .bss then cursor else some p.stop) l n

/-- The sections before a section, with the gap before it, take the bytes up to its start. -/
theorem emitSections_imageStart {l : List (Section × PlacedSection)} (hl : ∀ sp ∈ l, sp.2.IsFilled)
    {k : Nat} {s : Section} {p : PlacedSection} (hk : l[k]? = some (s, p)) {id : SectionId}
    {cursor : Option Word} {written n : Nat} {st t : Emission}
    (h : emitSections id cursor written (l.take k) st = .ok n t) :
    n + gapBefore (cursorAfter cursor (l.take k)) p.start = written + imageStart cursor l k := by
  induction l generalizing k id cursor written st with
  | nil => cases hk
  | cons first l ih =>
    cases k with
    | zero =>
      cases hk
      cases h
      rfl
    | succ k =>
      obtain ⟨s₀, p₀⟩ := first
      rw [List.take_succ_cons, emitSections_cons, bind_eq_ok] at h
      obtain ⟨count, u, hsection, hrest⟩ := h
      obtain ⟨rfl, -⟩ := Section.emit_writes_imageLength (hl (s₀, p₀) List.mem_cons_self) hsection
      rw [List.take_succ_cons, cursorAfter_cons, imageStart, ← Nat.add_assoc]
      exact ih (fun x hx => hl x (List.mem_cons_of_mem _ hx)) hk hrest

/-- A run that succeeds, cut at a section: what the section writes stands between what the sections
before it and those behind it write. -/
theorem emitSections_writes_at {l : List (Section × PlacedSection)}
    (hl : ∀ sp ∈ l, sp.2.IsFilled) {k : Nat} {s : Section} {p : PlacedSection}
    (hk : l[k]? = some (s, p)) {n : Nat} {st t : Emission}
    (h : emitSections 0 none 0 l st = .ok n t) :
    ∃ before mid count u after,
      emitSections 0 none 0 (l.take k) st = .ok before.length mid ∧
      s.emit k p (cursorAfter none (l.take k)) mid = .ok count u ∧
      ∀ own, Emit.Writes (s.emit k p (cursorAfter none (l.take k))) mid count u own →
        Emit.Writes (emitSections 0 none 0 l) st n t (before ++ own ++ after) := by
  rw [emitSections_at hk, bind_eq_ok] at h
  obtain ⟨m, mid, hbefore, h⟩ := h
  obtain ⟨count, u, hsection, hafter⟩ := bind_eq_ok.1 h
  obtain ⟨before, hm, hpre⟩ :=
    emitSections_writes (fun sp hsp => hl sp (List.mem_of_mem_take hsp)) hbefore
  obtain ⟨after, -, hpost⟩ :=
    emitSections_writes (fun sp hsp => hl sp (List.mem_of_mem_drop hsp)) hafter
  rw [Nat.zero_add] at hm
  subst hm
  refine ⟨before, mid, count, u, after, hbefore, hsection, fun own hown => ?_⟩
  rw [emitSections_at hk, List.append_assoc]
  have hboth := hown.bind (f := fun count => emitSections (k + 1) _ (before.length + count) _) hpost
  exact hpre.bind hboth

/-- A run over sections fails for a reason of writing. -/
theorem emitSections_isOfWriting {l : List (Section × PlacedSection)}
    (hl : ∀ sp ∈ l, sp.2.IsFilled) {id : SectionId} {cursor : Option Word} {written : Nat}
    {st t : Emission} {e : AssemblyError}
    (h : emitSections id cursor written l st = .error e t) : e.IsOfWriting := by
  induction l generalizing id cursor written st with
  | nil => cases h
  | cons sp l ih =>
    obtain ⟨s, p⟩ := sp
    rw [emitSections_cons, bind_eq_error] at h
    rcases h with h | ⟨n, u, -, h⟩
    · exact Section.emit_isOfWriting (hl (s, p) (by simp)) h
    · exact ih (fun x hx => hl x (by simp [hx])) h

end ObjectFile

end Assembler
