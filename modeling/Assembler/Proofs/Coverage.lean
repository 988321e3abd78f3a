import Assembler.Proofs.Calls

/-!
# What a success covers

A section can be added at any time, and the passes work on what was there when the first of them
succeeded: the second pass pairs sections with places, and a section that came later has none. It is
neither refused nor in the image.

`IsAssembled` says that a section is in. `exists_construct` finds the first pass that succeeded in a
list of calls. Main statements: `emit_covers_constructed`, and `emit_leaves_out` for a section that
a success leaves out.
-/

namespace Assembler

/-- A container that can express sections can express the first of them. -/
theorem Container.check_of_append {c : Container} {symbols : SymbolTable} {a b : List Section}
    (h : c.check symbols (a ++ b) = .ok ()) : c.check symbols a = .ok () := by
  unfold check at h ⊢
  rw [List.findSome?_append] at h
  split at h
  · cases h
  next hnone =>
    obtain ⟨hsymbols, hsections⟩ := Option.or_eq_none_iff.1 hnone
    rw [hsymbols, (Option.or_eq_none_iff.1 hsections).1]
    rfl

namespace ObjectFile

/-- What the second pass writes for the items of section `k` stands in the image, behind what the
sections before it and the gap take. -/
def HasBytes (obj : ObjectFile) (k : Nat) (p : PlacedSection) : Prop :=
  ∃ written st own head tail,
    emitSections 0 none 0 ((obj.sections.zip obj.placed).take k)
      ⟨obj.context.reset, Sink.new none⟩ = .ok written st ∧
    own = Emit.output (Item.emitAll p.items) (st.context.enterSection k p.start) ∧
    own.length = totalLength p.items ∧ obj.image = head ++ own ++ tail ∧
    head.length = written +
      gapBefore (cursorAfter none ((obj.sections.zip obj.placed).take k)) p.start

/-- Section `k` is assembled at a place. -/
structure IsAssembled (obj : ObjectFile) (k : Nat) (s : Section) (p : PlacedSection) : Prop where
  placed : obj.placed[k]? = some p
  /-- The first pass made the place and the items in it, behind the sections before. -/
  constructed : ∃ before mid next,
    constructSections 0 0 [] (.new obj.context.mode) (obj.sections.take k) =
      (.ok (), mid, before) ∧
    s.construct k (stopAfter 0 before) mid = .ok p next
  written : s.kind ≠ .bss → obj.HasBytes k p

/-- A run that succeeds writes every section of the image. -/
theorem hasBytes_of_run {obj : ObjectFile} (hfilled : ∀ p ∈ obj.placed, p.IsFilled) {sink : Sink}
    {n : Nat} {t : Emission} (hrun : obj.run ⟨obj.context.reset, sink⟩ = .ok n t) {k : Nat}
    {s : Section} {p : PlacedSection} (hk : (obj.sections.zip obj.placed)[k]? = some (s, p))
    (hs : s.kind ≠ .bss) : obj.HasBytes k p := by
  have hzip : ∀ sp ∈ obj.sections.zip obj.placed, sp.2.IsFilled :=
    fun sp hsp => hfilled sp.2 (List.of_mem_zip hsp).2
  have hp : p.IsFilled := hzip (s, p) (List.mem_of_getElem? hk)
  -- the image is what the run hands over to an empty buffer
  have hreplay := (run_writes_image hfilled hrun).2.replay #[]
  obtain ⟨before, st, count, u, after, hbefore, hsection, hcut⟩ :=
    emitSections_writes_at hzip hk hreplay
  obtain ⟨hlength, -, hwrites⟩ := Section.emit_writes_items hs hp hsection
  have himage : obj.image = _ := (hcut _ hwrites).output
  refine ⟨before.length, st, _, before ++ List.replicate (gapBefore _ p.start) 0, after, hbefore,
    rfl, hlength, ?_, by rw [List.length_append, List.length_replicate]⟩
  rw [himage]
  simp only [List.append_assoc]

/-! ## Calls after the first pass -/

/-- Where calls end behind the first pass, one of them is a first pass that succeeds. -/
theorem exists_construct {obj : ObjectFile} (hfresh : obj.stage = .fresh) {calls : List Call}
    (h : (obj.afterCalls calls).stage ≠ .fresh) :
    ∃ before since, calls = before ++ .construct :: since ∧
      (obj.afterCalls before).construct.1 = .ok () := by
  induction calls generalizing obj with
  | nil => exact absurd hfresh h
  | cons call calls ih =>
    rw [afterCalls_cons] at h
    rcases obj.step_stage call with hsame | ⟨rfl, hok, -, -⟩ | ⟨-, hturn, -⟩
    · obtain ⟨before, since, rfl, hok⟩ := ih (hsame.trans hfresh) h
      exact ⟨call :: before, since, rfl, hok⟩
    · exact ⟨[], calls, rfl, hok⟩
    · rw [hfresh] at hturn
      cases hturn

/-- The places are made once. -/
theorem step_placed {obj : ObjectFile} (h : obj.stage ≠ .fresh) (call : Call) :
    (obj.step call).placed = obj.placed := by
  cases call with
  | addSection s => rfl
  | construct => rw [step, construct_of_ne_fresh h]
  | emit sink =>
    rw [step]
    by_cases hturn : obj.stage = .constructed
    · rw [emit_eq_after hturn]
    · rw [emit_of_ne_constructed hturn]

theorem afterCalls_placed {obj : ObjectFile} (h : obj.stage ≠ .fresh) (calls : List Call) :
    (obj.afterCalls calls).placed = obj.placed := by
  induction calls generalizing obj with
  | nil => rfl
  | cons call calls ih => rw [afterCalls_cons, ih (step_stage_ne_fresh h call), step_placed h]

/-- The object file has the sections `early` and then those of `late`, and the first pass laid out
the early ones alone. -/
structure IsBehind (early late : List Section) (cur : ObjectFile) : Prop where
  sections : cur.sections = early ++ late
  filled : ∀ p ∈ cur.placed, p.IsFilled
  length : cur.placed.length = early.length
  constructed : ∀ {k s}, early[k]? = some s → ∃ p before mid next,
    cur.placed[k]? = some p ∧
    constructSections 0 0 [] (.new cur.context.mode) (early.take k) = (.ok (), mid, before) ∧
    s.construct k (stopAfter 0 before) mid = .ok p next

/-- After a first pass that succeeded, sections come late. -/
theorem isBehind_afterCalls (mode : Mode) (container : Container) {before : List Call}
    (h : ((new mode container).afterCalls before).construct.1 = .ok ()) (since : List Call) :
    IsBehind (addedBy before) (addedBy since)
      ((new mode container).afterCalls (before ++ .construct :: since)) := by
  have hbase := isAfter_afterCalls mode container before
  have hcur := isAfter_afterCalls mode container (before ++ .construct :: since)
  have hbuilt : ((new mode container).afterCalls before).construct =
      (.ok (), ((new mode container).afterCalls before).construct.2) := Prod.ext h rfl
  have hlaid := IsLaidOut.of_construct hbuilt
  have hplaced : ((new mode container).afterCalls (before ++ .construct :: since)).placed =
      ((new mode container).afterCalls before).construct.2.placed := by
    rw [afterCalls_append, afterCalls_cons]
    refine afterCalls_placed ?_ since
    rw [step, hlaid.stage]
    decide
  refine ⟨?_, hcur.filled, ?_, fun {k s} hk => ?_⟩
  · rw [hcur.sections, addedBy, List.filterMap_append]
    rfl
  · rw [hplaced, hlaid.length, (construct_ok hbuilt).2.1, hbase.sections]
  · rw [← hbase.sections] at hk ⊢
    obtain ⟨earlier, mid, p, next, hearlier, hp, hpk, -⟩ := exists_placed hbuilt hk
    rw [hcur.mode, hplaced]
    rw [hbase.mode] at hearlier
    exact ⟨p, earlier, mid, next, hpk, hearlier, hp⟩

section IsBehind

variable {early late : List Section} {cur : ObjectFile} (h : IsBehind early late cur)
include h

/-- The second pass meets the early sections only. -/
theorem IsBehind.run_eq : cur.run = { cur with sections := early }.run := by
  have hzip : (early ++ late).zip (cur.placed ++ []) = early.zip cur.placed ++ late.zip [] :=
    List.zip_append h.length.symm
  rw [List.append_nil, List.zip_nil_right, List.append_nil] at hzip
  unfold run
  rw [h.sections, hzip]

/-- A success does not know of late sections: without them it is the same, down to the byte. -/
theorem IsBehind.emit_eq {sink out : Sink} {n : Nat} {final : ObjectFile}
    (hemit : cur.emit sink = (.ok n, final, out)) :
    { cur with sections := early }.emit sink = (.ok n, { final with sections := early }, out) := by
  obtain ⟨hturn, t, hrun, hcheck, rfl, rfl⟩ := emit_eq_ok_iff.1 hemit
  rw [h.sections] at hcheck
  refine emit_eq_ok_iff.2 ⟨hturn, t, ?_, Container.check_of_append hcheck, rfl, rfl⟩
  have hrun' : cur.run ⟨cur.context.reset, sink⟩ = .ok n t := hrun
  rw [h.run_eq] at hrun'
  exact hrun'

/-- A success assembles a section if and only if it is an early one. -/
theorem IsBehind.exists_isAssembled_iff {sink : Sink} {n : Nat} {t : Emission}
    (hrun : cur.run ⟨cur.context.reset, sink⟩ = .ok n t) {k : Nat} {s : Section}
    (hk : cur.sections[k]? = some s) : (∃ p, cur.IsAssembled k s p) ↔ k < early.length := by
  constructor
  · rintro ⟨p, hp⟩
    rw [← h.length]
    exact (List.getElem?_eq_some_iff.1 hp.placed).1
  · intro hlt
    have hearly : early[k]? = some s := by
      rw [h.sections, List.getElem?_append_left hlt] at hk
      exact hk
    obtain ⟨p, before, mid, next, hp, hbefore, hconstruct⟩ := h.constructed hearly
    refine ⟨p, hp, ⟨before, mid, next, ?_, hconstruct⟩, ?_⟩
    · rw [h.sections, List.take_append_of_le_length (Nat.le_of_lt hlt)]
      exact hbefore
    · exact hasBytes_of_run h.filled hrun (List.getElem?_zip_eq_some.2 ⟨hk, hp⟩)

end IsBehind

/-! ## Any calls -/

/-- A second pass succeeds, after whatever calls since the object file was empty. One of them is the
first pass that succeeded.

* The sink receives the image.
* A section is assembled if and only if it was added before that first pass.
* So every section is, if and only if none was added since.
* A section that was added since leaves no trace: the answer, the image and the tables are those of
  the object file without it. -/
theorem emit_covers_constructed {mode : Mode} {container : Container} {calls : List Call}
    {sink out : Sink} {n : Nat} {final : ObjectFile}
    (h : ((new mode container).afterCalls calls).emit sink = (.ok n, final, out)) :
    let cur := (new mode container).afterCalls calls
    ∃ before since, calls = before ++ .construct :: since ∧
      ((new mode container).afterCalls before).construct.1 = .ok () ∧
      cur.sections = addedBy before ++ addedBy since ∧
      cur.placed.length = (addedBy before).length ∧
      out = sink.push cur.image ∧ n = cur.image.length ∧
      (∀ k s, cur.sections[k]? = some s →
        ((∃ p, cur.IsAssembled k s p) ↔ k < (addedBy before).length)) ∧
      ((∀ k s, cur.sections[k]? = some s → ∃ p, cur.IsAssembled k s p) ↔ addedBy since = []) ∧
      { cur with sections := addedBy before }.emit sink =
        (.ok n, { final with sections := addedBy before }, out) := by
  intro cur
  obtain ⟨hturn, t, hrun, -, -, rfl⟩ := emit_eq_ok_iff.1 h
  have hbehind : cur.stage ≠ .fresh := by
    rw [hturn]
    decide
  obtain ⟨before, since, rfl, hok⟩ := exists_construct rfl hbehind
  have hcur := isBehind_afterCalls mode container hok since
  obtain ⟨hlength, hwrites⟩ := run_writes_image hcur.filled hrun
  have hcovers := fun k s => hcur.exists_isAssembled_iff hrun (k := k) (s := s)
  refine ⟨before, since, rfl, hok, hcur.sections, hcur.length, hwrites.sink, hlength, hcovers, ?_,
    hcur.emit_eq h⟩
  constructor
  · intro hall
    refine List.eq_nil_iff_forall_not_mem.2 fun s hs => ?_
    obtain ⟨j, hj⟩ := List.mem_iff_getElem?.1 hs
    have hk : cur.sections[(addedBy before).length + j]? = some s := by
      rw [hcur.sections, List.getElem?_append_right (Nat.le_add_right _ _),
        Nat.add_sub_cancel_left]
      exact hj
    have hlt := (hcovers _ s hk).1 (hall _ s hk)
    omega
  · intro hnone k s hk
    refine (hcovers k s hk).2 ?_
    have hlt := (List.getElem?_eq_some_iff.1 hk).1
    rw [hcur.sections, hnone, List.append_nil] at hlt
    exact hlt

/-- One byte of code. -/
def earlyText : Section :=
  { Section.new "text" .text with contents := [.data (.bytes [1])] }

/-- Two bytes that are not in the image. -/
def earlyBss : Section :=
  { Section.new "bss" .bss with contents := [.data (.reserve .bit16 1)] }

/-- One byte of data, for after the first pass. -/
def lateData : Section :=
  { Section.new "data" .data with contents := [.data (.bytes [2])] }

/-- Code and space are assembled, after a try with a sink that is full. The data came between the
two tries, and are not. -/
theorem emit_covers_constructed_lateData :
    let cur := (new .bit32 .flat).afterCalls [.addSection earlyText, .addSection earlyBss,
      .construct, .emit (.new (some 0)), .addSection lateData]
    (cur.emit (.new none)).1 = .ok 1 ∧ cur.image.length = 1 ∧
      (∃ p, cur.IsAssembled 0 earlyText p) ∧ (∃ p, cur.IsAssembled 1 earlyBss p) ∧
      ¬ ∃ p, cur.IsAssembled 2 lateData p := by
  intro cur
  have hok : (cur.emit (.new none)).1 = .ok 1 := eq_ok_of_toOption (by decide +kernel)
  obtain ⟨before, since, -, -, -, hlength, -, hcount, hcovers, -⟩ :=
    emit_covers_constructed (Prod.ext hok rfl : cur.emit (.new none) = (.ok 1, _, _))
  have htwo : (addedBy before).length = 2 := hlength.symm.trans rfl
  rw [htwo] at hcovers
  refine ⟨hok, hcount.symm, (hcovers 0 _ rfl).2 (by decide), (hcovers 1 _ rfl).2 (by decide), ?_⟩
  rw [hcovers 2 _ rfl]
  decide

/-- A success that leaves a section out: it has no place, and its byte is not in the sink. -/
theorem emit_leaves_out :
    let cur := (new .bit32 .flat).afterCalls
      [.addSection earlyText, .construct, .addSection lateData]
    cur.sections[1]? = some lateData ∧ (cur.emit (.new none)).1 = .ok 1 ∧
      (cur.emit (.new none)).2.2 = .buffer none #[1] ∧ ¬ ∃ p, cur.IsAssembled 1 lateData p := by
  intro cur
  refine ⟨rfl, eq_ok_of_toOption (by decide +kernel), by decide +kernel, ?_⟩
  rintro ⟨p, hp⟩
  have hplaced : cur.placed[1]? = some p := hp.placed
  cases hplaced

end ObjectFile

end Assembler
