import Assembler.Proofs.Arrangement
import Assembler.Proofs.Calls
import Assembler.Proofs.Image
import Assembler.Proofs.Truncation

/-!
# Space between sections of the image

A section without an image holds zeros and no expression. Where a section of the image follows it,
the gap before that section is wide enough to cover it, and so the zeros are written all the same:
in one write with the gaps on both sides, and not in several. Where the writes are split makes no
difference to a sink (`Emit.putZeros_add`), and where the cursor stands in between makes none to
what follows, because every section is entered at its start. `Emit.Alike` says that two steps come
to the same but for the cursor.

Main statement: `ObjectFile.bss_as_data`.
-/

namespace Assembler

/-! ## Zeros -/

namespace Emit

/-- Hands zeros to the sink, and gives their number. -/
def putZeros (n : Nat) : Emit Nat := put (.fill n 0)

/-- A sink does not see how bytes are split into writes. -/
theorem put_eq_of_append {run first rest : Run} (h : run.toList = first.toList ++ rest.toList) :
    (put run : Emit Nat) = do
      let a ← put first
      let b ← put rest
      return a + b := by
  funext s
  have hlength : run.length = first.length + rest.length := by
    simp only [← Run.length_toList, h, List.length_append]
  rw [bind_apply, put_apply, put_apply]
  by_cases hfirst : s.sink.Takes first.toList
  · rw [Sink.write_of_takes hfirst]
    simp only [↓reduceIte, bind_apply, put_apply]
    by_cases hrest : (s.sink.offer first.toList).Takes rest.toList
    · have htakes : s.sink.Takes run.toList := by
        rw [h]
        exact (s.sink.takes_append _ _).2 ⟨hfirst, hrest⟩
      rw [Sink.write_of_takes hrest, Sink.write_of_takes htakes, Sink.offer_append hfirst, h,
        hlength]
      rfl
    · have hfull : ¬ s.sink.Takes run.toList := by
        rw [h, s.sink.takes_append]
        exact fun hboth => hrest hboth.2
      rw [Sink.write_of_not_takes hrest, Sink.write_of_not_takes hfull, Sink.offer_append hfirst, h]
      rfl
  · have hfull : ¬ s.sink.Takes run.toList := by
      rw [h, s.sink.takes_append]
      exact fun hboth => hfirst hboth.1
    rw [Sink.write_of_not_takes hfirst, Sink.write_of_not_takes hfull, h,
      Sink.offer_append_of_not_takes hfirst]
    rfl

theorem put_of_length_eq_zero {run : Run} (h : run.length = 0) :
    (put run : Emit Nat) = pure 0 := by
  funext s
  have hnil : run.toList = [] := List.eq_nil_of_length_eq_zero (by rw [Run.length_toList, h])
  have htakes : s.sink.Takes run.toList := by
    rw [hnil]
    exact s.sink.takes_nil
  rw [put_apply, Sink.write_of_takes htakes, hnil, h, Sink.offer_nil]
  rfl

theorem putZeros_zero : putZeros 0 = pure 0 := put_of_length_eq_zero rfl

theorem putZeros_add (m n : Nat) :
    putZeros (m + n) = do
      let a ← putZeros m
      let b ← putZeros n
      return a + b :=
  put_eq_of_append List.replicate_append_replicate.symm

/-- Zeros are zeros, in whichever way the run holds them. -/
theorem put_of_isZero {run : Run} (h : run.isZero) : put run = putZeros run.length := by
  have hzeros : run.toList = (Run.fill run.length 0).toList ++ (Run.literal []).toList := by
    cases run with
    | literal bytes =>
      simp only [Run.isZero, List.all_eq_true, decide_eq_true_eq] at h
      simpa [Run.toList, Run.length] using List.eq_replicate_of_mem h
    | fill count byte =>
      simp only [Run.isZero, Bool.or_eq_true, decide_eq_true_eq] at h
      rcases h with rfl | rfl <;> simp [Run.toList, Run.length]
  have hnone : (put (.literal []) : Emit Nat) = pure 0 := put_of_length_eq_zero rfl
  rw [put_eq_of_append hzeros, hnone]
  simp [putZeros]

end Emit

/-! ## Steps that are alike -/

/-- The state with the cursor rewound. -/
def Emission.rewind (s : Emission) : Emission := { s with context := s.context.reset }

theorem Emission.rewind_eq_iff {s t : Emission} :
    s.rewind = t.rewind ↔ s.context.reset = t.context.reset ∧ s.sink = t.sink := by
  rw [rewind, rewind, EmissionTo.mk.injEq]

namespace Emit

variable {α β : Type}

/-- What a step came to, with the cursor rewound. -/
def rewound : EStateM.Result AssemblyError Emission α → EStateM.Result AssemblyError Emission α
  | .ok a t => .ok a t.rewind
  | .error e t => .error e t.rewind

/-- Two steps come to the same, wherever the cursor stands before and after them. -/
def Alike (m m' : Emit α) : Prop :=
  ∀ s t : Emission, s.rewind = t.rewind → rewound (m s) = rewound (m' t)

theorem Alike.symm {m m' : Emit α} (h : Alike m m') : Alike m' m :=
  fun s t hst => (h t s hst.symm).symm

theorem Alike.trans {m m' m'' : Emit α} (h : Alike m m') (h' : Alike m' m'') : Alike m m'' :=
  fun s t hst => (h s t hst).trans (h' t t rfl)

theorem Alike.pure (a : α) : Alike (Pure.pure a) (Pure.pure a) :=
  fun _ _ hst => congrArg (EStateM.Result.ok a) hst

/-- Steps that are alike, followed by steps that are alike, are alike. The first may leave the
cursor in different places, but the second does not depend on it. -/
theorem Alike.bind {m m' : Emit α} {f f' : α → Emit β} (hm : Alike m m')
    (hf : ∀ a, Alike (f a) (f' a)) : Alike (m >>= f) (m' >>= f') := by
  intro s t hst
  have hfirst := hm s t hst
  rw [bind_apply, bind_apply]
  cases hs : m s with
  | error e u =>
    cases ht : m' t with
    | error e' v =>
      simp only [hs, ht, rewound, EStateM.Result.error.injEq] at hfirst
      simp only [rewound, hfirst]
    | ok a v => simp only [hs, ht, rewound] at hfirst; cases hfirst
  | ok a u =>
    cases ht : m' t with
    | error e v => simp only [hs, ht, rewound] at hfirst; cases hfirst
    | ok a' v =>
      simp only [hs, ht, rewound, EStateM.Result.ok.injEq] at hfirst
      obtain ⟨rfl, huv⟩ := hfirst
      exact hf a u v huv

/-- A write does not see the cursor. -/
theorem Alike.put (run : Run) : Alike (put run) (put run) := by
  intro s t hst
  obtain ⟨hcontext, hsink⟩ := Emission.rewind_eq_iff.1 hst
  rw [put_apply, put_apply, hsink]
  split <;> simp only [rewound, Emission.rewind, hcontext]

/-- Moves the cursor to the start of a section. -/
def enterAt (id : SectionId) (start : Word) : Emit Unit :=
  modify fun t => { t with context := t.context.enterSection id start }

/-- Entering a section forgets where the cursor was. -/
theorem enterSection_eq_of_rewind {s t : Emission} (h : s.rewind = t.rewind) (id : SectionId)
    (start : Word) :
    s.sink = t.sink ∧ s.context.enterSection id start = t.context.enterSection id start := by
  obtain ⟨hcontext, hsink⟩ := Emission.rewind_eq_iff.1 h
  exact ⟨hsink, congrArg (·.enterSection id start) hcontext⟩

/-- What starts by entering a section does not see where the cursor was. -/
theorem enterAt_alike (id : SectionId) (start : Word) (m : Emit α) :
    Alike (enterAt id start >>= fun _ => m) (enterAt id start >>= fun _ => m) := by
  intro s t hst
  obtain ⟨hsink, hcontext⟩ := enterSection_eq_of_rewind hst id start
  simp only [enterAt, bind_apply, modify_apply, hsink, hcontext]

/-- Bytes can be handed over before the cursor moves. -/
theorem enterAt_put_alike (id : SectionId) (start : Word) (run : Run) (f : Nat → Emit α) :
    Alike (enterAt id start >>= fun _ => put run >>= f)
      (put run >>= fun n => enterAt id start >>= fun _ => f n) := by
  intro s t hst
  obtain ⟨hsink, hcontext⟩ := enterSection_eq_of_rewind hst id start
  simp only [enterAt, bind_apply, modify_apply, put_apply, hsink, hcontext]
  by_cases htakes : (t.sink.write run).2
  · simp only [htakes, ↓reduceIte]
  · simp only [htakes]
    rfl

end Emit

open Emit

/-! ## Items and sections of zeros -/

namespace Item

/-- An item of zeros is a write of zeros. -/
theorem emit_alike {item : Item} (h : item.isZeroFill) :
    Alike item.emit (putZeros item.length) := by
  have hwrite : ∀ start stop, item.write start stop = putZeros item.length := by
    intro start stop
    cases item with
    | raw run => exact put_of_isZero h
    | reserve count => rfl
    | data | instruction => cases h
  intro s t hst
  have hput := Alike.put (.fill item.length 0) s t hst
  rw [← putZeros] at hput
  rw [emit_apply, hwrite, ← hput]
  cases putZeros item.length s <;> rfl

theorem emitFrom_alike {items : List Item} (h : ∀ item ∈ items, item.isZeroFill) (count : Nat) :
    Alike (emitFrom count items) (putZeros (totalLength items) >>= fun n => pure (count + n)) := by
  induction items generalizing count with
  | nil =>
    rw [totalLength_nil, putZeros_zero, pure_bind]
    exact .pure count
  | cons item items ih =>
    rw [emitFrom_cons, totalLength_cons, putZeros_add]
    simp only [bind_assoc, pure_bind]
    refine (emit_alike (h item List.mem_cons_self)).bind fun n => ?_
    simpa only [Nat.add_assoc] using ih (fun x hx => h x (List.mem_cons_of_mem item hx)) (count + n)

theorem emitFrom_add (m n : Nat) (items : List Item) :
    emitFrom (m + n) items = emitFrom n items >>= fun count => pure (m + count) := by
  funext s
  rw [bind_apply, emitFrom_count (m + n), emitFrom_count n]
  cases emitFrom 0 items s with
  | error e t => rfl
  | ok count t => simp [Nat.add_assoc]

end Item

/-- A place whose items are zeros, as a section without an image has. -/
structure PlacedSection.IsSpace (p : PlacedSection) : Prop where
  filled : p.IsFilled
  zero : ∀ item ∈ p.items, item.isZeroFill

namespace Section

variable {s : Section} {p : PlacedSection} {id : SectionId}

theorem emitGap_some (stop start : Word) :
    emitGap (some stop) start = putZeros (span stop start) := by
  unfold emitGap
  dsimp only
  split
  next hnone => rw [hnone, putZeros_zero]
  next => rfl

theorem emit_alike (s : Section) (id : SectionId) (p : PlacedSection) (cursor : Option Word) :
    Alike (s.emit id p cursor) (s.emit id p cursor) :=
  enterAt_alike id p.start _

theorem emit_eq_enterAt (hs : s.kind ≠ .bss) (hp : p.IsFilled) (cursor : Option Word) :
    s.emit id p cursor = (enterAt id p.start >>= fun _ =>
      emitGap cursor p.start >>= fun gap => Item.emitFrom gap p.items) := by
  funext st
  rw [emit_of_ne_bss hs hp]
  rfl

/-- Zeros without an image write nothing. -/
theorem emit_alike_pure (hs : s.kind = .bss) (hp : p.IsSpace) (cursor : Option Word) :
    Alike (s.emit id p cursor) (pure 0) := by
  intro st t hst
  have hitems := Item.emitFrom_alike hp.zero 0 ⟨st.context.enterSection id p.start, .discard⟩ _ rfl
  simp only [putZeros, bind_apply, put_apply, Sink.write, ↓reduceIte, pure_apply] at hitems
  rw [emit_apply hp.filled, bind_apply, enter_of_bss hs]
  dsimp only
  cases hrun : Item.emitFrom 0 p.items ⟨st.context.enterSection id p.start, .discard⟩ with
  | error e u => simp only [hrun, rewound] at hitems; cases hitems
  | ok n u =>
    simp only [hrun, rewound, EStateM.Result.ok.injEq] at hitems
    obtain ⟨hcontext, -⟩ := Emission.rewind_eq_iff.1 hitems.2
    have hleft : (s.leave st u).rewind = t.rewind := by
      rw [← hst, leave, if_pos hs, Emission.rewind_eq_iff]
      exact ⟨hcontext, rfl⟩
    simp only [hs, ↓reduceIte, rewound, pure_apply, hleft]

/-- Zeros in the image are one with the gap before them. -/
theorem emit_alike_putZeros (hs : s.kind ≠ .bss) (hp : p.IsSpace) (stop : Word) :
    Alike (s.emit id p (some stop)) (putZeros (span stop p.start + totalLength p.items)) := by
  intro st t hst
  rw [emit_of_ne_bss hs hp.filled, emitGap_some, putZeros_add]
  exact (Alike.put _).bind (Item.emitFrom_alike hp.zero) _ t hst

/-- The zeros before a section can be written in two parts, the first before it is entered. -/
theorem emit_alike_putZeros_emit (hs : s.kind ≠ .bss) (hp : p.IsFilled) {stop mid : Word}
    (hspan : span stop p.start = span stop mid + span mid p.start) (id : SectionId) :
    Alike (s.emit id p (some stop)) (do
      let m ← putZeros (span stop mid)
      let n ← s.emit id p (some mid)
      return m + n) := by
  simp only [emit_eq_enterAt hs hp, emitGap_some, hspan, putZeros_add, bind_assoc, pure_bind,
    Item.emitFrom_add]
  exact enterAt_put_alike id p.start _ _

end Section

/-! ## Sections one behind the other -/

namespace ObjectFile

theorem emitSections_alike (id : SectionId) (cursor : Option Word) (written : Nat)
    (l : List (Section × PlacedSection)) :
    Alike (emitSections id cursor written l) (emitSections id cursor written l) := by
  induction l generalizing id cursor written with
  | nil => exact .pure written
  | cons sp l ih => exact (Section.emit_alike _ id _ cursor).bind fun count => ih _ _ _

/-- Sections of which those without an image are space. -/
structure AreSpaced (l : List (Section × PlacedSection)) : Prop where
  filled : ∀ sp ∈ l, sp.2.IsFilled
  zero : ∀ sp ∈ l, sp.1.kind = .bss → sp.2.IsSpace

theorem AreSpaced.mono {l m : List (Section × PlacedSection)} (h : AreSpaced l)
    (hsub : ∀ sp ∈ m, sp ∈ l) : AreSpaced m :=
  ⟨fun sp hsp => h.filled sp (hsub sp hsp), fun sp hsp => h.zero sp (hsub sp hsp)⟩

/-- Space without an image is passed over. -/
theorem emitSections_alike_of_bss {s : Section} {p : PlacedSection} (hs : s.kind = .bss)
    (hp : p.IsSpace) (l : List (Section × PlacedSection)) (id : SectionId) (cursor : Option Word)
    (written : Nat) :
    Alike (emitSections id cursor written ((s, p) :: l))
      (emitSections (id + 1) cursor written l) := by
  rw [emitSections_cons, if_pos hs]
  simpa using (Section.emit_alike_pure hs hp cursor).bind
    fun count => emitSections_alike (id + 1) cursor (written + count) l

/-- The first of the sections that is part of the image. -/
def nextLoaded (l : List (Section × PlacedSection)) : Option (Section × PlacedSection) :=
  l.find? fun sp => sp.1.kind ≠ .bss

/-- The gap before the next section of the image can be filled up to `mid` ahead of time. -/
theorem emitSections_alike_putZeros {l : List (Section × PlacedSection)} (hl : AreSpaced l)
    {next : Section × PlacedSection} (hnext : nextLoaded l = some next) {stop mid : Word}
    (hspan : span stop next.2.start = span stop mid + span mid next.2.start) (id : SectionId)
    (written : Nat) :
    Alike (emitSections id (some stop) written l) (putZeros (span stop mid) >>= fun n =>
      emitSections id (some mid) (written + n) l) := by
  induction l generalizing id written with
  | nil => cases hnext
  | cons sp l ih =>
    obtain ⟨s, p⟩ := sp
    have hrest : AreSpaced l := hl.mono fun sp hsp => List.mem_cons_of_mem _ hsp
    by_cases hs : s.kind = .bss
    · -- the section is passed over, before or after the zeros
      have hskip := emitSections_alike_of_bss hs (hl.zero (s, p) List.mem_cons_self hs) l id
      have hlater := ih hrest (by simpa [nextLoaded, hs] using hnext) (id + 1) written
      exact (hskip _ _).trans (hlater.trans ((Alike.put _).bind fun n => (hskip _ _).symm))
    · obtain rfl : (s, p) = next := by simpa [nextLoaded, hs] using hnext
      have hsplit := Section.emit_alike_putZeros_emit hs (hl.filled _ List.mem_cons_self) hspan id
      have hboth := hsplit.bind fun n =>
        emitSections_alike (id + 1) (some p.stop) (written + n) l
      simpa only [emitSections_cons, if_neg hs, bind_assoc, pure_bind, Nat.add_assoc] using hboth

/-- Space is written where it stands, or ahead of the next section of the image. -/
theorem emitSections_alike_of_space {s s' : Section} {p : PlacedSection}
    {l : List (Section × PlacedSection)} (hs : s.kind = .bss) (hs' : s'.kind ≠ .bss)
    (hp : p.IsSpace) (hl : AreSpaced l) {next : Section × PlacedSection}
    (hnext : nextLoaded l = some next) {stop : Word}
    (hown : span stop p.stop = span stop p.start + totalLength p.items)
    (hgap : span stop next.2.start = span stop p.stop + span p.stop next.2.start) (id : SectionId)
    (written : Nat) :
    Alike (emitSections id (some stop) written ((s, p) :: l))
      (emitSections id (some stop) written ((s', p) :: l)) := by
  have hbare := emitSections_alike_of_bss hs hp l id (some stop) written
  have hfilled : Alike (emitSections id (some stop) written ((s', p) :: l))
      (putZeros (span stop p.stop) >>= fun n =>
        emitSections (id + 1) (some p.stop) (written + n) l) := by
    rw [emitSections_cons, if_neg hs', hown]
    exact (Section.emit_alike_putZeros hs' hp stop).bind fun n => emitSections_alike _ _ _ l
  have hahead := emitSections_alike_putZeros hl hnext hgap (id + 1) written
  exact hbare.trans (hahead.trans hfilled.symm)

/-! ## Space as data -/

/-- The object file with section `k` as data. -/
def asData (obj : ObjectFile) (k : SectionId) : ObjectFile :=
  { obj with sections := obj.sections.modify k fun s => { s with kind := .data } }

end ObjectFile

/-- Data can be laid out like a section of any kind. -/
theorem Section.construct_as_data {s : Section} {id : SectionId} {stop : Word} {ctx after : Context}
    {p : PlacedSection} (h : s.construct id stop ctx = .ok p after) :
    { s with kind := .data }.construct id stop ctx = .ok p after := by
  obtain ⟨hstart, hitems, hstop, -⟩ := construct_eq_ok.1 h
  exact construct_eq_ok.2 ⟨hstart, hitems, hstop, nofun⟩

namespace ObjectFile

/-- Sections are laid out in the same way when one of them becomes a data section, if they are laid
out at all. -/
theorem constructSections_as_data {l : List Section} {id : SectionId} {stop : Word}
    {ctx after : Context} {placed : List PlacedSection}
    (h : constructSections id stop [] ctx l = (.ok (), after, placed)) (k : Nat) :
    constructSections id stop [] ctx (l.modify k fun s => { s with kind := .data }) =
      (.ok (), after, placed) := by
  induction l generalizing id stop ctx placed k with
  | nil => rwa [List.modify_nil]
  | cons s l ih =>
    obtain ⟨p, next, rest, hp, hrest, rfl⟩ := constructSections_cons_eq_ok.1 h
    cases k with
    | zero =>
      rw [List.modify_zero_cons, constructSections_cons_eq_ok]
      exact ⟨p, next, rest, Section.construct_as_data hp, hrest, rfl⟩
    | succ k =>
      rw [List.modify_succ_cons, constructSections_cons_eq_ok]
      exact ⟨p, next, rest, hp, ih hrest k, rfl⟩

/-- A first pass succeeds when it is in its turn and all sections are laid out, and sets nothing but
the places, the context and the stage. -/
theorem construct_eq_ok {obj built : ObjectFile} :
    obj.construct = (.ok (), built) ↔
      obj.stage = .fresh ∧
        constructSections 0 0 [] (.new obj.context.mode) obj.sections =
          (.ok (), built.context, built.placed) ∧
        built = { obj with
          context := built.context, placed := built.placed, stage := .constructed } := by
  constructor
  · intro h
    have hfresh := (stage_construct_of_ok (congrArg Prod.fst h)).1
    have hrun := (construct_ok h).1
    rw [construct_of_fresh hfresh, hrun] at h
    exact ⟨hfresh, hrun, (congrArg Prod.snd h).symm⟩
  · rintro ⟨hfresh, hrun, hbuilt⟩
    rw [construct_of_fresh hfresh, hrun, hbuilt]
    rfl

theorem construct_as_data {obj built : ObjectFile} (h : obj.construct = (.ok (), built)) (k : Nat) :
    (obj.asData k).construct = (.ok (), built.asData k) := by
  obtain ⟨hfresh, hrun, hbuilt⟩ := construct_eq_ok.1 h
  exact construct_eq_ok.2
    ⟨hfresh, constructSections_as_data hrun k, congrArg (asData · k) hbuilt⟩

/-- The object file with the cursor rewound. -/
def rewind (obj : ObjectFile) : ObjectFile := { obj with context := obj.context.reset }

/-- A container does not ask for the kind of a section. -/
theorem check_as_data (c : Container) (symbols : SymbolTable) (l : List Section) (k : Nat) :
    c.check symbols (l.modify k fun s => { s with kind := .data }) = c.check symbols l := by
  have hfault : (l.modify k fun s => { s with kind := .data }).findSome? c.sectionFault? =
      l.findSome? c.sectionFault? := by
    induction l generalizing k with
    | nil => rw [List.modify_nil]
    | cons s l ih =>
      cases k with
      | zero => rfl
      | succ k => rw [List.modify_succ_cons, List.findSome?_cons, List.findSome?_cons, ih]
  unfold Container.check
  rw [hfault]

/-- From outcomes that differ in the cursor, the second pass ends with the same answer and the same
bytes when a section has become a data section. -/
theorem finish_as_data (obj : ObjectFile) (k : Nat)
    {r r' : EStateM.Result AssemblyError Emission Nat} (h : rewound r = rewound r') :
    let bare := obj.finish r
    let filled := (obj.asData k).finish r'
    filled.1 = bare.1 ∧ filled.2.2 = bare.2.2 ∧ filled.2.1.rewind = bare.2.1.rewind.asData k := by
  cases r with
  | error e s =>
    cases r' with
    | ok n t => cases h
    | error e' t =>
      simp only [rewound, EStateM.Result.error.injEq] at h
      obtain ⟨rfl, hst⟩ := h
      obtain ⟨hcontext, hsink⟩ := Emission.rewind_eq_iff.1 hst
      simp only [finish, rewind, asData, hsink, hcontext, and_self]
  | ok n s =>
    cases r' with
    | error e t => cases h
    | ok n' t =>
      simp only [rewound, EStateM.Result.ok.injEq] at h
      obtain ⟨rfl, hst⟩ := h
      obtain ⟨hcontext, hsink⟩ := Emission.rewind_eq_iff.1 hst
      have hsymbols : s.context.symbols = t.context.symbols := by
        show s.context.reset.symbols = t.context.reset.symbols
        rw [hcontext]
      simp only [finish, asData, check_as_data, hsymbols]
      split <;> simp only [rewind, hsink, hcontext, and_self]

/-! ## The image around the space -/

theorem span_add {a b c : Word} (hab : a.toInt ≤ b.toInt) (hbc : b.toInt ≤ c.toInt)
    (hlt : c.toInt - a.toInt < 2 ^ 64) : span a c = span a b + span b c := by
  have hac := span_eq (show a.toInt ≤ c.toInt by omega) hlt
  have hab := span_eq hab (by omega)
  have hbc := span_eq hbc (by omega)
  omega

/-- Every section of the image lies between the first and the last of them. -/
theorem IsExact.between {stop : Int} {l : List (Section × PlacedSection)} (h : IsExact stop l)
    {e first last : Extent} (he : e ∈ imageExtents l) (hfirst : (imageExtents l).head? = some first)
    (hlast : (imageExtents l).getLast? = some last) :
    first.start ≤ e.start ∧ e.stop ≤ last.stop := by
  have hall : ∀ e ∈ imageExtents l, e.start ≤ e.stop := by
    intro e he
    obtain ⟨sp, hsp, rfl⟩ := List.mem_map.1 (List.mem_filter.1 he).1
    have hstop := h.stop_eq hsp
    show sp.2.start.toInt ≤ sp.2.stop.toInt
    omega
  have hpairwise : (imageExtents l).Pairwise fun a b => a.stop ≤ b.start :=
    (List.pairwise_map.2 h.pairwise).filter _
  constructor
  · obtain ⟨rest, hrest⟩ := List.head?_eq_some_iff.1 hfirst
    rw [hrest] at hall hpairwise he
    rcases List.mem_cons.1 he with rfl | he
    · exact Int.le_refl _
    · have hle := List.rel_of_pairwise_cons hpairwise he
      have hown := hall first List.mem_cons_self
      omega
  · obtain ⟨rest, hrest⟩ := List.getLast?_eq_some_iff.1 hlast
    rw [hrest] at hall hpairwise he
    rcases List.mem_append.1 he with he | he
    · have hle := (List.pairwise_append.1 hpairwise).2.2 e he last (by simp)
      have hown := hall last (by simp)
      omega
    · obtain rfl := List.mem_singleton.1 he
      exact Int.le_refl _

theorem mem_imageExtents {l : List (Section × PlacedSection)} {sp : Section × PlacedSection}
    (hsp : sp ∈ l) (hs : sp.1.kind ≠ .bss) : sp.1.extent sp.2 ∈ imageExtents l :=
  List.mem_filter.2 ⟨List.mem_map.2 ⟨sp, hsp, rfl⟩, by simpa [Section.extent] using hs⟩

/-- The image stops with one of its sections. -/
theorem exists_cursorAfter {l : List (Section × PlacedSection)} {sp : Section × PlacedSection}
    (hsp : sp ∈ l) (hs : sp.1.kind ≠ .bss) :
    ∃ last ∈ l, last.1.kind ≠ .bss ∧
      ∃ stop, cursorAfter none l = some stop ∧ stop.toInt = last.2.stop.toInt := by
  have hne := List.ne_nil_of_mem (mem_imageExtents hsp hs)
  obtain ⟨hmem, hloaded⟩ := List.mem_filter.1 (List.getLast_mem hne)
  obtain ⟨last, hlast, hextent⟩ := List.mem_map.1 hmem
  have hcursor := cursorAfter_toInt none l
  rw [List.getLast?_eq_some_getLast hne, ← hextent, Option.map_some, Option.some_or,
    Option.map_eq_some_iff] at hcursor
  rw [← hextent] at hloaded
  exact ⟨last, hlast, by simpa [Section.extent] using hloaded, hcursor⟩

/-- The image has fewer than `2 ^ 64` addresses, from the start of its first section to the stop of
its last. -/
def IsNarrow (l : List (Section × PlacedSection)) : Prop :=
  ∀ first last, (imageExtents l).head? = some first → (imageExtents l).getLast? = some last →
    last.stop - first.start < 2 ^ 64

/-- In a narrow image no section stops `2 ^ 64` bytes or more after the start of another. -/
theorem IsExact.sub_lt {stop : Int} {l : List (Section × PlacedSection)} (h : IsExact stop l)
    (hnarrow : IsNarrow l) {a b : Section × PlacedSection} (ha : a ∈ l) (hb : b ∈ l)
    (hakind : a.1.kind ≠ .bss) (hbkind : b.1.kind ≠ .bss) :
    b.2.stop.toInt - a.2.start.toInt < 2 ^ 64 := by
  have hmem := mem_imageExtents ha hakind
  have hne := List.ne_nil_of_mem hmem
  have hfirst := List.head?_eq_some_head hne
  have hlast := List.getLast?_eq_some_getLast hne
  have hle := (h.between hmem hfirst hlast).1
  have hge := (h.between (mem_imageExtents hb hbkind) hfirst hlast).2
  have hwidth := hnarrow _ _ hfirst hlast
  simp only [Section.extent] at hle hge
  omega

/-- The second pass over space that has sections of the image before and behind it does not depend
on whether the space is part of the image. -/
theorem emitSections_as_data {pre post : List (Section × PlacedSection)} {s s' : Section}
    {p : PlacedSection} {stop : Int} (hspaced : AreSpaced (pre ++ (s, p) :: post))
    (hexact : IsExact stop (pre ++ (s, p) :: post)) (hnarrow : IsNarrow (pre ++ (s, p) :: post))
    {before after : Section × PlacedSection} (hbefore : before ∈ pre) (hafter : after ∈ post)
    (hbeforeKind : before.1.kind ≠ .bss) (hs : s.kind = .bss) (hs' : s'.kind ≠ .bss)
    (hafterKind : after.1.kind ≠ .bss) :
    Alike (emitSections 0 none 0 (pre ++ (s, p) :: post))
      (emitSections 0 none 0 (pre ++ (s', p) :: post)) := by
  have hmem : (s, p) ∈ pre ++ (s, p) :: post := List.mem_append_right _ List.mem_cons_self
  have hpost : ∀ sp ∈ post, sp ∈ pre ++ (s, p) :: post :=
    fun sp hsp => List.mem_append_right _ (List.mem_cons_of_mem _ hsp)
  -- the image stops with the section `last`, and goes on with the section `next`
  obtain ⟨last, hlast, hlastKind, cursor, hcursor, hcursorStop⟩ :=
    exists_cursorAfter hbefore hbeforeKind
  obtain ⟨next, hnext⟩ : ∃ next, nextLoaded post = some next :=
    Option.isSome_iff_exists.1 (List.find?_isSome.2 ⟨after, hafter, by simpa using hafterKind⟩)
  have hnextMem := List.mem_of_find?_eq_some hnext
  have hnextKind : next.1.kind ≠ .bss := by simpa using List.find?_some hnext
  obtain ⟨-, hbehind, hahead⟩ := List.pairwise_append.1 hexact.pairwise
  have hstart : last.2.stop.toInt ≤ p.start.toInt := hahead last hlast (s, p) List.mem_cons_self
  have hstop : p.stop.toInt ≤ next.2.start.toInt := List.rel_of_pairwise_cons hbehind hnextMem
  have hwidth :=
    hexact.sub_lt hnarrow (List.mem_append_left _ hlast) (hpost next hnextMem) hlastKind hnextKind
  have hlastLength := hexact.stop_eq (List.mem_append_left _ hlast)
  have hnextLength := hexact.stop_eq (hpost next hnextMem)
  have hlength := hexact.stop_eq hmem
  have hitems : span p.start p.stop = totalLength p.items := by
    have hspan := span_eq (show p.start.toInt ≤ p.stop.toInt by omega) (by omega)
    omega
  have hown : span cursor p.stop = span cursor p.start + totalLength p.items := by
    rw [← hitems]
    exact span_add (by omega) (by omega) (by omega)
  have hgap : span cursor next.2.start = span cursor p.stop + span p.stop next.2.start :=
    span_add (by omega) hstop (by omega)
  rw [emitSections_append, emitSections_append, hcursor]
  exact (emitSections_alike 0 none 0 pre).bind fun n =>
    emitSections_alike_of_space hs hs' (hspaced.zero _ hmem hs) (hspaced.mono hpost) hnext hown
      hgap _ n

theorem IsLaidOut.exists_zip {obj : ObjectFile} (h : obj.IsLaidOut) {k : Nat} {s : Section}
    (hs : obj.sections[k]? = some s) : ∃ p, (obj.sections.zip obj.placed)[k]? = some (s, p) := by
  have hlt : k < obj.placed.length := by
    rw [h.length]
    exact (List.getElem?_eq_some_iff.1 hs).1
  exact ⟨_, List.getElem?_zip_eq_some.2 ⟨hs, List.getElem?_eq_getElem hlt⟩⟩

theorem areSpaced_of_construct {obj built : ObjectFile} (h : obj.construct = (.ok (), built)) :
    AreSpaced (built.sections.zip built.placed) := by
  have hfilled := (IsLaidOut.of_construct h).filled_of_mem_zip
  refine ⟨hfilled, fun sp hsp hs => ⟨hfilled sp hsp, ?_⟩⟩
  obtain ⟨k, hk⟩ := List.mem_iff_getElem?.1 hsp
  obtain ⟨hsk, hpk⟩ := List.getElem?_zip_eq_some.1 hk
  obtain ⟨stop, mid, next, rest, hsection, -⟩ := exists_construct_of_placed h hsk hpk
  exact (Section.construct_eq_ok.1 hsection).2.2.2 hs

/-- A list that is changed in one place, paired with another list, is the pairing changed in that
place. -/
theorem zip_modify {α β : Type} (f : α → α) {l : List α} {m : List β} {k : Nat} {a : α} {b : β}
    (h : (l.zip m)[k]? = some (a, b)) :
    (l.modify k f).zip m = (l.zip m).take k ++ (f a, b) :: (l.zip m).drop (k + 1) := by
  induction l generalizing m k with
  | nil => simp at h
  | cons x l ih =>
    cases m with
    | nil => simp at h
    | cons y m =>
      cases k with
      | zero =>
        cases h
        rfl
      | succ k =>
        rw [List.modify_succ_cons, List.zip_cons_cons, ih h]
        rfl

/-- Both passes over an object file with space between two sections of the image, and over the same
file with that section as data. In exact integers the layout stays below `2 ^ 127`, and the image
has fewer than `2 ^ 64` bytes. Then the first passes lay the sections out alike, with the same items
and the same tables; and for every sink the second passes come to the same answer and leave the same
sink and, but for the cursor, the same object file. -/
theorem bss_as_data {obj built : ObjectFile} (hbuilt : obj.construct = (.ok (), built))
    (hbound : ∀ e ∈ built.extents, e.stop < 2 ^ 127)
    (himage : ∀ first last, built.loaded.head? = some first → built.loaded.getLast? = some last →
      last.stop - first.start < 2 ^ 64)
    {i k j : SectionId} {before s after : Section} (hik : i < k) (hkj : k < j)
    (hi : obj.sections[i]? = some before) (hk : obj.sections[k]? = some s)
    (hj : obj.sections[j]? = some after)
    (hbefore : before.kind ≠ .bss) (hs : s.kind = .bss) (hafter : after.kind ≠ .bss) :
    (obj.asData k).construct = (.ok (), built.asData k) ∧
    ∀ sink,
      let bare := built.emit sink
      let filled := (built.asData k).emit sink
      filled.1 = bare.1 ∧ filled.2.2 = bare.2.2 ∧
        filled.2.1.rewind = bare.2.1.rewind.asData k := by
  have hlaid := IsLaidOut.of_construct hbuilt
  have hsections := (construct_ok hbuilt).2.1
  have hexact := isExact_of_construct hbuilt hbound
  refine ⟨construct_as_data hbuilt k, fun sink => ?_⟩
  have hdata : (built.asData k).stage = .constructed := hlaid.stage
  rw [emit_eq_finish hlaid.stage, emit_eq_finish hdata]
  have hnarrow : IsNarrow (built.sections.zip built.placed) := by
    rw [IsNarrow, ← hexact.loaded_eq]
    exact himage
  have hruns : Alike built.run (built.asData k).run := by
    rw [← hsections] at hi hk hj
    obtain ⟨q, hiq⟩ := hlaid.exists_zip hi
    obtain ⟨p, hkp⟩ := hlaid.exists_zip hk
    obtain ⟨r, hjr⟩ := hlaid.exists_zip hj
    have hcut := eq_take_append_cons_drop hkp
    have hbeforeMem : (before, q) ∈ (built.sections.zip built.placed).take k :=
      List.mem_iff_getElem?.2 ⟨i, by rwa [List.getElem?_take_of_lt hik]⟩
    have hafterMem : (after, r) ∈ (built.sections.zip built.placed).drop (k + 1) := by
      refine List.mem_iff_getElem?.2 ⟨j - (k + 1), ?_⟩
      rwa [List.getElem?_drop, Nat.add_sub_cancel' hkj]
    have halike := emitSections_as_data (hcut ▸ areSpaced_of_construct hbuilt) (hcut ▸ hexact)
      (hcut ▸ hnarrow) hbeforeMem hafterMem hbefore hs
      (show ({ s with kind := .data } : Section).kind ≠ .bss from nofun) hafter
    rw [← hcut, ← zip_modify (fun s => { s with kind := .data }) hkp] at halike
    exact halike
  exact built.finish_as_data k (hruns _ _ rfl)

/-- The spaced sections give the same 17 bytes with their space as data. With room for five of them
both run into the limit, in a gap and in the space. -/
theorem bss_as_data_spacedSections :
    ∃ built, spacedSections.construct = (.ok (), built) ∧
      (spacedSections.asData 1).construct = (.ok (), built.asData 1) ∧
      (built.emit (.new none)).1 = .ok 17 ∧
      ((built.asData 1).emit (.new none)).1 = .ok 17 ∧
      ((built.asData 1).emit (.new none)).2.2 = (built.emit (.new none)).2.2 ∧
      ((built.asData 1).emit (.new (some 5))).1 = .error .sinkFull ∧
      ((built.asData 1).emit (.new (some 5))).2.2 = .buffer (some 5) #[0x90, 0x91, 0, 0, 0] := by
  have hbuilt : spacedSections.construct = (.ok (), spacedSections.construct.2) :=
    Prod.ext (eq_ok_of_toOption (by decide +kernel)) rfl
  have hextents : spacedSections.construct.2.extents =
      [⟨true, 0x100, 0x102⟩, ⟨false, 0x102, 0x10a⟩, ⟨true, 0x110, 0x111⟩] := by decide +kernel
  have hloaded : spacedSections.construct.2.loaded =
      [⟨true, 0x100, 0x102⟩, ⟨true, 0x110, 0x111⟩] := by
    rw [loaded, hextents]
    rfl
  have hwhole : (spacedSections.construct.2.emit (.new none)).1 = .ok 17 :=
    eq_ok_of_toOption (by decide +kernel)
  obtain ⟨hdata, hemit⟩ := bss_as_data hbuilt (by simp [hextents])
    (by
      rw [hloaded]
      rintro first last ⟨⟩ ⟨⟩
      decide)
    (show 0 < 1 by decide) (show 1 < 2 by decide)
    (show spacedSections.sections[0]? = some _ from rfl)
    (show spacedSections.sections[1]? = some _ from rfl)
    (show spacedSections.sections[2]? = some _ from rfl) nofun rfl nofun
  obtain ⟨hcount, hbytes, -⟩ := hemit (.new none)
  obtain ⟨hfull, hkept, -⟩ := hemit (.new (some 5))
  refine ⟨_, hbuilt, hdata, hwhole, hcount.trans hwhole, hbytes, ?_, ?_⟩
  · rw [hfull]
    rfl
  · rw [hkept]
    decide +kernel

end ObjectFile

end Assembler
