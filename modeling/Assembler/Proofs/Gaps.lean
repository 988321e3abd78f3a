import Assembler.Proofs.Calls
import Assembler.Proofs.Image
import Mathlib.Data.List.Chain

/-!
# Gaps that are too wide to count

The zeros before a section of the image are counted in 64 bits, and a gap that they do not count is
left out: nothing is written for it, nothing fails, and all that follows stands too early.
`lostAfter` adds up the widths of those gaps. After `written` bytes the image stops `written`
addresses behind its base and what was lost so far (`emitSections_stopsAt`), so that the count of a
second pass falls short by exactly that.

Main statements: `emit_falls_short`, and `emit_drops_gap` for a success without its gap.
-/

namespace Assembler

namespace ObjectFile

/-- Width of the gap between `cursor` and `start`, if it is too wide to count. -/
def lostBefore (cursor : Option Int) (start : Int) : Int :=
  match cursor with
  | none => 0
  | some stop => if start - stop < 2 ^ 64 then 0 else start - stop

/-- Widths of all gaps that are too wide to count, the first of them behind `cursor`. -/
def lostAfter (cursor : Option Int) : List Extent → Int
  | [] => 0
  | e :: rest => lostBefore cursor e.start + lostAfter (some e.stop) rest

theorem lostBefore_nonneg (cursor : Option Int) (start : Int) : 0 ≤ lostBefore cursor start := by
  unfold lostBefore
  split
  · exact Int.le_refl 0
  · split <;> omega

theorem lostAfter_nonneg (cursor : Option Int) (l : List Extent) : 0 ≤ lostAfter cursor l := by
  induction l generalizing cursor with
  | nil => exact Int.le_refl 0
  | cons e l ih =>
    have hbefore := lostBefore_nonneg cursor e.start
    have hafter := ih (some e.stop)
    rw [lostAfter]
    omega

/-- The second range starts no further behind the first than 64 bits count. -/
def IsNear (a b : Extent) : Prop := b.start - a.stop < 2 ^ 64

theorem lostBefore_eq_zero_iff (a b : Extent) :
    lostBefore (some a.stop) b.start = 0 ↔ IsNear a b := by
  unfold lostBefore IsNear
  dsimp only
  split <;> omega

/-- Nothing is lost if every range is near to the one before it. -/
theorem lostAfter_stop_eq_zero_iff (a : Extent) (l : List Extent) :
    lostAfter (some a.stop) l = 0 ↔ List.IsChain IsNear (a :: l) := by
  induction l generalizing a with
  | nil => simp [lostAfter]
  | cons b l ih =>
    have hbefore := lostBefore_nonneg (some a.stop) b.start
    have hafter := lostAfter_nonneg (some b.stop) l
    rw [List.isChain_cons_cons, ← ih b, ← lostBefore_eq_zero_iff, lostAfter]
    omega

theorem lostAfter_none_eq_zero_iff (l : List Extent) :
    lostAfter none l = 0 ↔ List.IsChain IsNear l := by
  cases l with
  | nil => simp [lostAfter]
  | cons e l =>
    rw [← lostAfter_stop_eq_zero_iff, lostAfter, lostBefore, Int.zero_add]

/-! ## The second pass -/

/-- A section of the image starts behind what is written, what is lost and the gap before it. -/
theorem start_eq_add_lost {base : Int} {cursor : Option Word} {start : Word} {written : Nat}
    (hfirst : cursor = none → start.toInt = base)
    (hbehind : ∀ stop, cursor = some stop → 0 ≤ stop.toInt ∧ stop.toInt ≤ start.toInt)
    (hat : StopsAt base cursor written) :
    start.toInt = base + lostBefore (cursor.map BitVec.toInt) start.toInt +
      (written + gapBefore cursor start : Nat) := by
  cases cursor with
  | none =>
    have hwritten : written = 0 := hat
    have hstart := hfirst rfl
    simp only [Option.map_none, lostBefore, gapBefore]
    omega
  | some stop =>
    have hstop : stop.toInt = base + written := hat
    obtain ⟨hnonneg, hle⟩ := hbehind stop rfl
    simp only [Option.map_some, lostBefore, gapBefore]
    -- the gap is counted as it is or not at all
    split
    next hnear =>
      have hspan := span_eq hle hnear
      omega
    next hwide =>
      have hspan := span_of_wide hnonneg (Int.not_lt.1 hwide)
      omega

/-- Sections that are written take the image to where the last of them stops, but for the gaps that
are lost. -/
theorem emitSections_stopsAt {l : List (Section × PlacedSection)} (hl : ∀ sp ∈ l, sp.2.IsFilled)
    {base stop : Int} (hexact : IsExact stop l) (hstop : 0 ≤ stop) {cursor : Option Word}
    {written : Nat} (hat : StopsAt base cursor written)
    (hcursor : ∀ c, cursor = some c → 0 ≤ c.toInt ∧ c.toInt ≤ stop)
    (hfirst : cursor = none → ∀ e, (imageExtents l).head? = some e → e.start = base)
    {id : SectionId} {n : Nat} {st t : Emission}
    (h : emitSections id cursor written l st = .ok n t) :
    StopsAt (base + lostAfter (cursor.map BitVec.toInt) (imageExtents l)) (cursorAfter cursor l)
      n := by
  induction l generalizing base stop id cursor written st with
  | nil =>
    cases h
    simpa [imageExtents, lostAfter] using hat
  | cons sp l ih =>
    obtain ⟨s, p⟩ := sp
    have hp : p.IsFilled := hl (s, p) List.mem_cons_self
    have hlater := fun sp hsp => hl sp (List.mem_cons_of_mem (s, p) hsp)
    obtain ⟨-, hle, hpstop, hrest⟩ := hexact
    rw [emitSections_cons, bind_eq_ok] at h
    obtain ⟨count, u, hsection, h⟩ := h
    rw [cursorAfter_cons]
    by_cases hs : s.kind = .bss
    · -- addresses go on, the image does not
      rw [imageExtents_cons_of_bss hs] at hfirst ⊢
      rw [if_pos hs] at h ⊢
      obtain ⟨rfl, -⟩ := Section.emit_writes_bss hs hp hsection
      refine ih hlater hrest (by omega) hat (fun c hc => ?_) hfirst h
      have hc' := hcursor c hc
      omega
    · rw [imageExtents_cons_of_ne_bss hs] at hfirst ⊢
      rw [if_neg hs] at h ⊢
      obtain ⟨own, hown, rfl, -⟩ := Section.emit_writes hs hp hsection
      have hstart : p.start.toInt = base +
          lostBefore (cursor.map BitVec.toInt) p.start.toInt +
          (written + gapBefore cursor p.start : Nat) := by
        refine start_eq_add_lost (fun hnone => hfirst hnone _ rfl) (fun c hc => ?_) hat
        have hc' := hcursor c hc
        omega
      -- from here on the image is counted from a later base
      have hat' : StopsAt (base + lostBefore (cursor.map BitVec.toInt) p.start.toInt) (some p.stop)
          (written + (gapBefore cursor p.start + own.length)) := by
        show p.stop.toInt = _
        omega
      rw [lostAfter, ← Int.add_assoc]
      refine ih hlater hrest (by omega) hat' ?_ (by simp) h
      rintro c ⟨⟩
      omega

/-- Both passes succeed, and in exact integers the layout stays below `2 ^ 127`. Then the sink
receives as many bytes as the pass counts. They are fewer than the addresses from the start of the
first section of the image to the stop of the last, by the widths of the gaps that are too wide to
count; so they are as many if and only if there is no such gap. -/
theorem emit_falls_short {obj built final : ObjectFile} {sink out : Sink} {n : Nat}
    (hbuilt : obj.construct = (.ok (), built)) (hemit : built.emit sink = (.ok n, final, out))
    (hbound : ∀ e ∈ built.extents, e.stop < 2 ^ 127) :
    out = sink.push built.image ∧ built.image.length = n ∧
    (built.loaded = [] → n = 0) ∧
    ∀ first last, built.loaded.head? = some first → built.loaded.getLast? = some last →
      (n : Int) = last.stop - first.start - lostAfter none built.loaded ∧
      ((n : Int) = last.stop - first.start ↔ List.IsChain IsNear built.loaded) := by
  have hlaid := IsLaidOut.of_construct hbuilt
  have hexact := isExact_of_construct hbuilt hbound
  have hloaded := hexact.loaded_eq
  obtain ⟨t, hrun, -, -, rfl⟩ := (emit_eq_ok hlaid).1 hemit
  obtain ⟨hlength, hwrites⟩ := run_writes_image hlaid.filled hrun
  -- the image is counted from the start of its first section
  have hstops : ∀ base, (∀ e, built.loaded.head? = some e → e.start = base) →
      StopsAt (base + lostAfter none built.loaded)
        (cursorAfter none (built.sections.zip built.placed)) n := by
    rw [hloaded]
    intro base hbase
    exact emitSections_stopsAt hlaid.filled_of_mem_zip hexact (Int.le_refl 0)
      (show StopsAt base none 0 from rfl) (by simp) (fun _ => hbase) hrun
  have hcursor := cursorAfter_toInt none (built.sections.zip built.placed)
  rw [← hloaded] at hcursor
  refine ⟨hwrites.sink, hlength.symm, ?_, ?_⟩
  · intro hnone
    simp only [hnone, List.getLast?_nil, Option.map_none, Option.or_none,
      Option.map_eq_none_iff] at hcursor
    have hstop := hstops 0 (by simp [hnone])
    rw [hcursor] at hstop
    exact hstop
  · intro first last hfirst hlast
    have hstop := hstops first.start (by simp [hfirst])
    rw [hlast, Option.map_some, Option.some_or, Option.map_eq_some_iff] at hcursor
    obtain ⟨stop, hcursor, hlaststop⟩ := hcursor
    rw [hcursor] at hstop
    have hcount : stop.toInt = first.start + lostAfter none built.loaded + n := hstop
    rw [← lostAfter_none_eq_zero_iff]
    omega

/-- A byte of code at zero, and data `2 ^ 64` addresses behind it. -/
def farSections : ObjectFile :=
  let text := { Section.new "text" .text with contents := [.data (.bytes [1])] }
  let data := { Section.new "data" .data with address := some 0x10000000000000001, contents :=
    [.data (.bytes [2])] }
  ((ObjectFile.new .bit32 .flat).addSection text).addSection data

theorem extents_farSections : farSections.construct.2.extents =
    [⟨true, 0, 1⟩, ⟨true, 2 ^ 64 + 1, 2 ^ 64 + 2⟩] := by
  decide +kernel

theorem loaded_farSections : farSections.construct.2.loaded =
    [⟨true, 0, 1⟩, ⟨true, 2 ^ 64 + 1, 2 ^ 64 + 2⟩] := by
  rw [loaded, extents_farSections]
  rfl

/-- Of far sections two bytes are counted. They fall short by the gap. -/
theorem emit_falls_short_farSections :
    ∃ built final out, farSections.construct = (.ok (), built) ∧
      built.emit (.new none) = (.ok 2, final, out) ∧ built.image.length = 2 ∧
      ((2 : Nat) : Int) = 2 ^ 64 + 2 - 0 - lostAfter none built.loaded ∧
      ¬ List.IsChain IsNear built.loaded := by
  have hbuilt : farSections.construct = (.ok (), farSections.construct.2) :=
    Prod.ext (eq_ok_of_toOption (by decide +kernel)) rfl
  have hemit : (farSections.construct.2.emit (.new none)).1 = .ok 2 :=
    eq_ok_of_toOption (by decide +kernel)
  have hloaded := loaded_farSections
  obtain ⟨-, hlength, -, hcount⟩ :=
    emit_falls_short hbuilt (Prod.ext hemit rfl) (by simp [extents_farSections])
  obtain ⟨hshort, hnear⟩ := hcount ⟨true, 0, 1⟩ ⟨true, 2 ^ 64 + 1, 2 ^ 64 + 2⟩
    (by rw [hloaded]; rfl) (by rw [hloaded]; rfl)
  refine ⟨_, _, _, hbuilt, Prod.ext hemit rfl, hlength, hshort, ?_⟩
  rw [← hnear]
  decide

/-- A success without its gap: the sections stand `2 ^ 64` addresses apart, and their bytes one
behind the other. -/
theorem emit_drops_gap :
    ∃ built first last, farSections.construct = (.ok (), built) ∧
      (∀ e ∈ built.extents, e.stop < 2 ^ 127) ∧ built.loaded = [first, last] ∧
      2 ^ 64 ≤ last.start - first.stop ∧ (built.emit (.new none)).1 = .ok 2 ∧
      (built.emit (.new none)).2.2 = .buffer none #[1, 2] ∧
      ((2 : Nat) : Int) ≠ last.stop - first.start := by
  refine ⟨farSections.construct.2, _, _, Prod.ext (eq_ok_of_toOption (by decide +kernel)) rfl,
    by simp [extents_farSections], loaded_farSections, by decide, ?_, ?_, by decide⟩
  · exact eq_ok_of_toOption (by decide +kernel)
  · decide +kernel

end ObjectFile

end Assembler
