import Assembler.Proofs.Layout
import Assembler.Proofs.TwoPass

/-!
# The image

The second pass writes the sections one after the other and fills the gaps between them. Sections
without an image take addresses and no bytes, so that the place of a byte has to be counted from
where the last section of the image stopped. `StopsAt` relates the two: after `written` bytes the
image stops `written` addresses behind its base. It holds along the whole run
(`emitSections_image`).

Main statement: `image_placement`.
-/

namespace Assembler

namespace ObjectFile

/-- The image stops at `cursor` after `written` bytes, counted from `base`. Before its first section
nothing is written. -/
def StopsAt (base : Int) (cursor : Option Word) (written : Nat) : Prop :=
  match cursor with
  | none => written = 0
  | some stop => stop.toInt = base + written

/-- A section can follow in the image: it is the first and starts at `base`, or it starts after
`cursor`, no further away than 64 bits count. -/
structure Follows (base : Int) (cursor : Option Word) (p : PlacedSection) : Prop where
  nonneg : 0 ≤ p.start.toInt
  stop_eq : p.stop.toInt = p.start.toInt + totalLength p.items
  start_eq : cursor = none → p.start.toInt = base
  gap : ∀ stop, cursor = some stop →
    stop.toInt ≤ p.start.toInt ∧ p.start.toInt - stop.toInt < 2 ^ 64

/-- The sections of the image can follow each other. -/
def Fits (base : Int) (cursor : Option Word) : List (Section × PlacedSection) → Prop
  | [] => True
  | (s, p) :: rest =>
    if s.kind = .bss then Fits base cursor rest
    else Follows base cursor p ∧ Fits base (some p.stop) rest

/-- Some section of the image covers the address. -/
def Loads (l : List (Section × PlacedSection)) (address : Int) : Prop :=
  ∃ sp ∈ l, sp.1.kind ≠ .bss ∧ (sp.1.extent sp.2).Covers address

/-- The gap before a section takes the image up to its start. -/
theorem Follows.start_eq_add {base : Int} {cursor : Option Word} {p : PlacedSection} {written : Nat}
    (h : Follows base cursor p) (hat : StopsAt base cursor written) :
    p.start.toInt = base + (written + gapBefore cursor p.start : Nat) := by
  cases cursor with
  | none =>
    have hwritten : written = 0 := hat
    have hstart := h.start_eq rfl
    simp only [gapBefore]
    omega
  | some stop =>
    obtain ⟨hle, hlt⟩ := h.gap stop rfl
    have hspan := span_eq hle hlt
    have hstop : stop.toInt = base + written := hat
    simp only [gapBefore]
    omega

/-- The image stops where its last section does. -/
theorem Follows.stopsAt {base : Int} {cursor : Option Word} {p : PlacedSection} {written : Nat}
    (h : Follows base cursor p) (hat : StopsAt base cursor written) :
    StopsAt base (some p.stop)
      (written + (gapBefore cursor p.start + totalLength p.items)) := by
  have hstart := h.start_eq_add hat
  have hstop := h.stop_eq
  show p.stop.toInt = _
  omega

theorem fits_append {base : Int} {cursor : Option Word} {a b : List (Section × PlacedSection)} :
    Fits base cursor (a ++ b) ↔ Fits base cursor a ∧ Fits base (cursorAfter cursor a) b := by
  induction a generalizing cursor with
  | nil => simp [Fits]
  | cons sp a ih =>
    obtain ⟨s, p⟩ := sp
    rw [List.cons_append, cursorAfter_cons]
    by_cases hs : s.kind = .bss <;> simp [Fits, hs, ih, and_assoc]

/-- Sections are written as many bytes as the image has addresses up to where it stops then. What no
section of the image covers is zero. -/
theorem emitSections_image {l : List (Section × PlacedSection)} (hl : ∀ sp ∈ l, sp.2.IsFilled)
    {base : Int} {id : SectionId} {cursor : Option Word} {written n : Nat} {st t : Emission}
    (hat : StopsAt base cursor written) (hfits : Fits base cursor l)
    (h : emitSections id cursor written l st = .ok n t) :
    ∃ bytes, n = written + bytes.length ∧ StopsAt base (cursorAfter cursor l) n ∧
      Emit.Writes (emitSections id cursor written l) st n t bytes ∧
      ∀ j, j < bytes.length → ¬ Loads l (base + (written + j : Nat)) → bytes[j]? = some 0 := by
  induction l generalizing id cursor written st with
  | nil =>
    cases h
    exact ⟨[], rfl, hat, .pure _ _, fun j hj => absurd hj (Nat.not_lt_zero j)⟩
  | cons sp l ih =>
    obtain ⟨s, p⟩ := sp
    have hp : p.IsFilled := hl (s, p) List.mem_cons_self
    rw [emitSections_cons, bind_eq_ok] at h
    obtain ⟨count, u, hsection, hrest⟩ := h
    have hlater := fun sp hsp => hl sp (List.mem_cons_of_mem (s, p) hsp)
    have hloads : ∀ {address}, Loads l address → Loads ((s, p) :: l) address :=
      fun ⟨sp, hsp, h⟩ => ⟨sp, List.mem_cons_of_mem _ hsp, h⟩
    rw [emitSections_cons, cursorAfter_cons]
    by_cases hs : s.kind = .bss
    · simp only [hs, ↓reduceIte] at hrest ⊢
      -- neither the bytes nor the cursor change
      obtain ⟨rfl, hw⟩ := Section.emit_writes_bss hs hp hsection
      obtain ⟨bytes, rfl, hat', hw', hzero⟩ :=
        ih hlater hat (by simpa only [Fits, hs, ↓reduceIte] using hfits) hrest
      refine ⟨bytes, rfl, hat', hw.bind hw', ?_⟩
      intro j hj hnot
      exact hzero j hj fun hload => hnot (hloads hload)
    · simp only [hs, ↓reduceIte] at hrest ⊢
      obtain ⟨hfollows, hfits'⟩ : Follows base cursor p ∧ Fits base (some p.stop) l := by
        simpa only [Fits, hs, ↓reduceIte] using hfits
      obtain ⟨own, hlen, rfl, hw⟩ := Section.emit_writes hs hp hsection
      have hstart := hfollows.start_eq_add hat
      have hstop := hfollows.stop_eq
      obtain ⟨bytes, rfl, hat', hw', hzero⟩ :=
        ih hlater (by simpa only [hlen] using hfollows.stopsAt hat) hfits' hrest
      refine ⟨_, ?_, hat', hw.bind hw', ?_⟩
      · simp only [List.length_append, List.length_replicate]
        omega
      · intro j hj hnot
        simp only [List.length_append, List.length_replicate] at hj
        -- the gap is zero, the section itself is covered, and the rest is behind both
        rcases Nat.lt_or_ge j (gapBefore cursor p.start) with hgap | hgap
        · rw [List.append_assoc, List.getElem?_append_left (by simpa using hgap)]
          simp [hgap]
        · rcases Nat.lt_or_ge j (gapBefore cursor p.start + own.length) with hown | hown
          · refine absurd ⟨(s, p), List.mem_cons_self, hs, ?_, ?_⟩ hnot
            · show p.start.toInt ≤ _
              omega
            · show _ < p.stop.toInt
              omega
          · rw [List.getElem?_append_right (by simpa using hown)]
            simp only [List.length_append, List.length_replicate]
            apply hzero
            · omega
            · intro hload
              apply hnot
              have hadd : written + (gapBefore cursor p.start + own.length) +
                  (j - (gapBefore cursor p.start + own.length)) = written + j := by omega
              rw [hadd] at hload
              exact hloads hload

/-! ## Ranges of the image -/

/-- The ranges that the first pass gave to the sections of the image. -/
def imageExtents (l : List (Section × PlacedSection)) : List Extent :=
  (l.map fun sp => sp.1.extent sp.2).filter Extent.isLoaded

/-- The sections of the image have the ranges that the first pass gave them, if those are exact. -/
theorem IsExact.loaded_eq {obj : ObjectFile} (h : IsExact 0 (obj.sections.zip obj.placed)) :
    obj.loaded = imageExtents (obj.sections.zip obj.placed) :=
  congrArg (List.filter Extent.isLoaded) h.layout_eq_map

theorem imageExtents_cons_of_bss {s : Section} (hs : s.kind = .bss) (p : PlacedSection)
    (l : List (Section × PlacedSection)) : imageExtents ((s, p) :: l) = imageExtents l := by
  simp [imageExtents, Section.extent, hs]

theorem imageExtents_cons_of_ne_bss {s : Section} (hs : s.kind ≠ .bss) (p : PlacedSection)
    (l : List (Section × PlacedSection)) :
    imageExtents ((s, p) :: l) = s.extent p :: imageExtents l := by
  simp [imageExtents, Section.extent, hs]

theorem loads_iff {l : List (Section × PlacedSection)} {address : Int} :
    Loads l address ↔ ∃ e ∈ imageExtents l, e.Covers address := by
  simp only [Loads, imageExtents, List.mem_filter, List.mem_map]
  constructor
  · rintro ⟨sp, hsp, hs, hcovers⟩
    exact ⟨_, ⟨⟨sp, hsp, rfl⟩, by simpa [Section.extent] using hs⟩, hcovers⟩
  · rintro ⟨e, ⟨⟨sp, hsp, rfl⟩, hs⟩, hcovers⟩
    exact ⟨sp, hsp, by simpa [Section.extent] using hs, hcovers⟩

/-- The image stops where the last of its sections does. -/
theorem cursorAfter_toInt (cursor : Option Word) (l : List (Section × PlacedSection)) :
    (cursorAfter cursor l).map BitVec.toInt =
      ((imageExtents l).getLast?.map Extent.stop).or (cursor.map BitVec.toInt) := by
  induction l generalizing cursor with
  | nil => simp [imageExtents]
  | cons sp l ih =>
    obtain ⟨s, p⟩ := sp
    rw [cursorAfter_cons, ih]
    by_cases hs : s.kind = .bss
    · rw [imageExtents_cons_of_bss hs, if_pos hs]
    · rw [imageExtents_cons_of_ne_bss hs, if_neg hs, List.getLast?_cons]
      cases (imageExtents l).getLast? <;> rfl

/-- In an exact layout the sections of the image can follow each other, if no gap between two of
them is too wide to count. -/
theorem IsExact.fits {stop base : Int} {cursor : Option Word} {l : List (Section × PlacedSection)}
    (h : IsExact stop l) (hstop : 0 ≤ stop) (hcursor : ∀ c, cursor = some c → c.toInt ≤ stop)
    (hfirst : ∀ e, (imageExtents l)[0]? = some e →
      (cursor = none → e.start = base) ∧ ∀ c, cursor = some c → e.start - c.toInt < 2 ^ 64)
    (hgaps : ∀ i a b, (imageExtents l)[i]? = some a → (imageExtents l)[i + 1]? = some b →
      b.start - a.stop < 2 ^ 64) :
    Fits base cursor l := by
  induction l generalizing stop cursor with
  | nil => trivial
  | cons sp l ih =>
    obtain ⟨s, p⟩ := sp
    obtain ⟨-, hle, hpstop, hrest⟩ := h
    by_cases hs : s.kind = .bss
    · rw [imageExtents_cons_of_bss hs] at hfirst hgaps
      rw [Fits, if_pos hs]
      -- the cursor stays behind while the addresses go on
      refine ih hrest (by omega) ?_ hfirst hgaps
      intro c hc
      have hc := hcursor c hc
      omega
    · rw [imageExtents_cons_of_ne_bss hs] at hfirst hgaps
      obtain ⟨hbase, hnear⟩ := hfirst (s.extent p) rfl
      rw [Fits, if_neg hs]
      refine ⟨⟨by omega, hpstop, hbase, ?_⟩, ih hrest (by omega) ?_ ?_ ?_⟩
      · intro c hc
        have hc' := hcursor c hc
        exact ⟨by omega, hnear c hc⟩
      · rintro c ⟨⟩
        exact Int.le_refl _
      · intro e he
        refine ⟨nofun, ?_⟩
        rintro c ⟨⟩
        exact hgaps 0 (s.extent p) e rfl he
      · intro i a b ha hb
        exact hgaps (i + 1) a b ha hb

/-! ## Items in the image -/

/-- An item of the image is written at its own address, counted from the base. -/
theorem Reaches.image_at {obj : ObjectFile} (hobj : obj.IsLaidOut) {base : Int}
    (hfits : Fits base none (obj.sections.zip obj.placed)) {sink : Sink} {n : Nat} {t : Emission}
    (hrun : emitSections 0 none 0 (obj.sections.zip obj.placed) ⟨obj.context.reset, sink⟩ =
      .ok n t)
    {k i : Nat} {item : Item} {st : Emission} (hreach : obj.Reaches sink k i item st) {s : Section}
    (hs : obj.sections[k]? = some s) (hloaded : s.kind ≠ .bss) :
    ∃ before after, st.context.address.toInt = base + before.length ∧
      (Emit.output item.emit st.context).length = item.length ∧
      Emit.Writes (emitSections 0 none 0 (obj.sections.zip obj.placed)) ⟨obj.context.reset, sink⟩
        n t (before ++ Emit.output item.emit st.context ++ after) := by
  have hwhere := fun p => hreach.address (p := p)
  obtain ⟨s', p, n₀, mid, m, hk, hi, hbefore, hat⟩ := hreach
  obtain ⟨hs', hp⟩ := List.getElem?_zip_eq_some.1 hk
  rw [hs, Option.some.injEq] at hs'
  subst hs'
  have hfilled : ∀ sp ∈ obj.sections.zip obj.placed, sp.2.IsFilled := hobj.filled_of_mem_zip
  have hpfilled : p.IsFilled := hfilled (s, p) (List.mem_of_getElem? hk)
  -- the run is cut into the sections before, the section itself, and those behind
  rw [emitSections_at hk, bind_eq_ok] at hrun
  obtain ⟨n₁, mid₁, hbefore₁, hrun⟩ := hrun
  rw [hbefore] at hbefore₁
  cases hbefore₁
  obtain ⟨count, u, hsection, hrest⟩ := bind_eq_ok.1 hrun
  rw [eq_take_append_cons_drop hk, fits_append] at hfits
  obtain ⟨hfits₀, hfits₁⟩ := hfits
  obtain ⟨hfollows, hfits₂⟩ : Follows base _ p ∧ Fits base (some p.stop) _ := by
    simpa only [Fits, hloaded, ↓reduceIte] using hfits₁
  have hnone : StopsAt base none 0 := rfl
  obtain ⟨pre, rfl, hstops, hpre, -⟩ :=
    emitSections_image (fun sp hsp => hfilled sp (List.mem_of_mem_take hsp)) hnone hfits₀ hbefore
  obtain ⟨own, hlen, hcount, -⟩ := Section.emit_writes hloaded hpfilled hsection
  obtain ⟨m', st', before, after, hat', hbeforelen, hownlen, hown⟩ :=
    Section.emit_writes_at hloaded hpfilled hi hsection
  -- the section has been cut at the state in which the item is reached
  rw [hat] at hat'
  cases hat'
  have hcursor : cursorAfter none ((obj.sections.zip obj.placed).take (k + 1)) = some p.stop := by
    rw [cursorAfter_take_add_one hk, if_neg hloaded]
  rw [hcursor] at hrest
  obtain ⟨post, -, -, hpost, -⟩ :=
    emitSections_image (fun sp hsp => hfilled sp (List.mem_of_mem_drop hsp))
      (by simpa only [hcount, hlen] using hfollows.stopsAt hstops) hfits₂ hrest
  refine ⟨pre ++ before, after ++ post, ?_, hownlen, ?_⟩
  · have hstart := hfollows.start_eq_add hstops
    have hle := totalLength_take_add_le hi
    have hlt : p.stop.toInt < 2 ^ 127 := BitVec.toInt_lt
    have hstop := hfollows.stop_eq
    rw [hwhere p hp, advance_eq, Word.toInt_add_ofNat hfollows.nonneg (by omega),
      List.length_append, hbeforelen]
    omega
  · rw [emitSections_at hk]
    have hboth := hown.bind
      (f := fun count => emitSections (k + 1) _ (0 + pre.length + count) _) hpost
    rw [← hcursor] at hboth
    simp only [List.append_assoc] at hboth ⊢
    exact hpre.bind hboth

/-- An item of the image is written in the state `st`, over the address. -/
def CoveredBy (obj : ObjectFile) (sink : Sink) (address : Int) (item : Item)
    (st : Emission) : Prop :=
  ∃ k s i, obj.sections[k]? = some s ∧ s.kind ≠ .bss ∧ obj.Reaches sink k i item st ∧
    st.context.address.toInt ≤ address ∧ address < st.context.address.toInt + item.length

/-- Every address of a section of the image is covered by one of its items. -/
theorem exists_coveredBy {obj : ObjectFile} (hobj : obj.IsLaidOut) {stop : Int}
    (hexact : IsExact stop (obj.sections.zip obj.placed)) (hstop : 0 ≤ stop) {sink : Sink} {n : Nat}
    (hemit : (obj.emit sink).1 = .ok n) {address : Int}
    (hloads : Loads (obj.sections.zip obj.placed) address) :
    ∃ item st, obj.CoveredBy sink address item st := by
  obtain ⟨⟨s, p⟩, hsp, hs, hle, hlt⟩ := hloads
  obtain ⟨k, hk⟩ := List.mem_iff_getElem?.1 hsp
  obtain ⟨hsk, hpk⟩ : obj.sections[k]? = some s ∧ obj.placed[k]? = some p :=
    List.getElem?_zip_eq_some.1 hk
  replace hle : p.start.toInt ≤ address := hle
  replace hlt : address < p.stop.toInt := hlt
  have hpstop := hexact.stop_eq hsp
  have hpstart := hexact.le_start hsp
  have hbound : p.stop.toInt < 2 ^ 127 := BitVec.toInt_lt
  have hoffset : (address - p.start.toInt).toNat < totalLength p.items := by omega
  -- the items fill the section, so that one of them has the address
  obtain ⟨i, item, hi, hbefore, hafter⟩ := exists_item_at hoffset
  obtain ⟨st, hreach⟩ := exists_reaches hobj hemit hpk hi
  have haddress : st.context.address.toInt = p.start.toInt + totalLength (p.items.take i) := by
    rw [hreach.address hpk, advance_eq]
    exact Word.toInt_add_ofNat (by omega) (by omega)
  exact ⟨item, st, k, s, i, hsk, hs, hreach, by omega, by omega⟩

/-- Both passes succeed; in exact integers the layout stays below `2 ^ 127`, and the next section of
the image is never further away than 64 bits count. Then the sink receives the image of the
addresses from the start of the first section of the image to the stop of the last: over every
address stands the byte of the item that covers it, and zero where no section of the image does. A
sink without a limit receives the same bytes, as many as the pass counts. -/
theorem image_placement {obj built final : ObjectFile} {sink out : Sink} {n : Nat}
    (hbuilt : obj.construct = (.ok (), built)) (hemit : built.emit sink = (.ok n, final, out))
    (hbound : ∀ e ∈ built.extents, e.stop < 2 ^ 127)
    (hgaps : ∀ i a b, built.loaded[i]? = some a → built.loaded[i + 1]? = some b →
      b.start - a.stop < 2 ^ 64) :
    ∃ image : List UInt8, out = sink.push image ∧
      built.emit (.new none) = (.ok n, final, .buffer none image.toArray) ∧ image.length = n ∧
      (built.loaded = [] → image = []) ∧
      ∀ first last, built.loaded.head? = some first → built.loaded.getLast? = some last →
        (n : Int) = last.stop - first.start ∧
        ∀ address, first.start ≤ address → address < last.stop →
          (∀ item st, built.CoveredBy sink address item st →
            image[(address - first.start).toNat]? =
              (Emit.output item.emit st.context)[(address - st.context.address.toInt).toNat]?) ∧
          ((∃ e ∈ built.loaded, e.Covers address) →
            ∃ item st, built.CoveredBy sink address item st) ∧
          ((¬ ∃ e ∈ built.loaded, e.Covers address) →
            image[(address - first.start).toNat]? = some 0) := by
  have hlaid := IsLaidOut.of_construct hbuilt
  have hexact := isExact_of_construct hbuilt hbound
  rw [hexact.loaded_eq] at hgaps ⊢
  obtain ⟨t, hrun, hcheck, rfl, rfl⟩ := (emit_eq_ok hlaid).1 hemit
  -- the first section of the image, if there is one, is its base
  obtain ⟨base, hbase⟩ : ∃ base, ∀ e,
      (imageExtents (built.sections.zip built.placed)).head? = some e → e.start = base := by
    cases (imageExtents (built.sections.zip built.placed)).head? with
    | none => exact ⟨0, nofun⟩
    | some e => exact ⟨e.start, by simp⟩
  have hfits : Fits base none (built.sections.zip built.placed) := by
    refine hexact.fits (Int.le_refl 0) nofun ?_ hgaps
    intro e he
    exact ⟨fun _ => hbase e (by rw [List.head?_eq_getElem?, he]), nofun⟩
  obtain ⟨image, hn, hstops, hwrites, hzero⟩ :=
    emitSections_image hlaid.filled_of_mem_zip (show StopsAt base none 0 from rfl) hfits hrun
  rw [Nat.zero_add] at hn
  have hlast := cursorAfter_toInt none (built.sections.zip built.placed)
  refine ⟨image, hwrites.sink, ?_, hn.symm, ?_, ?_⟩
  · exact (emit_eq_ok hlaid).2 ⟨_, hwrites.replay #[], hcheck, rfl, by simp⟩
  · intro hempty
    rw [hempty] at hlast
    simp only [List.getLast?_nil, Option.map_none, Option.or_none, Option.map_eq_none_iff] at hlast
    rw [hlast] at hstops
    have hzero : n = 0 := hstops
    exact List.eq_nil_of_length_eq_zero (by omega)
  · intro first last hfirst hlast'
    have hstart := hbase first hfirst
    have hlength : last.stop = base + n := by
      rw [hlast'] at hlast
      simp only [Option.map_some, Option.some_or, Option.map_eq_some_iff] at hlast
      obtain ⟨stop, hcursor, hstop⟩ := hlast
      rw [hcursor] at hstops
      rw [← hstop]
      exact hstops
    refine ⟨by omega, ?_⟩
    intro address hge hlt
    refine ⟨?_, ?_, ?_⟩
    · rintro item st ⟨k, s, i, hs, hne, hreach, hle, hin⟩
      obtain ⟨before, after, haddress, hlen, hwrites'⟩ := hreach.image_at hlaid hfits hrun hs hne
      have himage : image = before ++ Emit.output item.emit st.context ++ after := by
        rw [← hwrites.output, hwrites'.output]
      rw [himage, List.append_assoc, List.getElem?_append_right (by omega),
        List.getElem?_append_left (by omega)]
      congr 1
      omega
    · intro hcovers
      exact exists_coveredBy hlaid hexact (Int.le_refl 0) (by rw [hemit]) (loads_iff.2 hcovers)
    · intro hnot
      apply hzero
      · omega
      · rw [loads_iff]
        intro hcovers
        apply hnot
        obtain ⟨e, he, hcovers⟩ := hcovers
        refine ⟨e, he, ?_⟩
        have haddress : base + ((0 + (address - first.start).toNat : Nat) : Int) = address := by
          omega
        rwa [haddress] at hcovers

/-- Code at `0x100`, space without an image behind it, and data at the next multiple of 16. -/
def spacedSections : ObjectFile :=
  let text := { Section.new "text" .text with address := some 0x100, contents :=
    [.data (.bytes [0x90, 0x91])] }
  let bss := { Section.new "bss" .bss with contents := [.data (.reserve .bit32 2)] }
  let data := { Section.new "data" .data with alignment := 16, contents :=
    [.data (.bytes [1])] }
  (((ObjectFile.new .bit32 .flat).addSection text).addSection bss).addSection data

/-- The image of the spaced sections has 17 bytes, and zero over an address of the bare space. -/
theorem image_placement_spacedSections :
    ∃ built final out, spacedSections.construct = (.ok (), built) ∧
      built.emit (.new none) = (.ok 17, final, out) ∧
      built.loaded = [⟨true, 0x100, 0x102⟩, ⟨true, 0x110, 0x111⟩] ∧
      ∃ image : List UInt8, out = .buffer none image.toArray ∧ image.length = 17 ∧
        image[5]? = some 0 := by
  have hbuilt : spacedSections.construct = (.ok (), spacedSections.construct.2) :=
    Prod.ext (eq_ok_of_toOption (by decide +kernel)) rfl
  have hemit : (spacedSections.construct.2.emit (.new none)).1 = .ok 17 :=
    eq_ok_of_toOption (by decide +kernel)
  have hextents : spacedSections.construct.2.extents =
      [⟨true, 0x100, 0x102⟩, ⟨false, 0x102, 0x10a⟩, ⟨true, 0x110, 0x111⟩] := by decide +kernel
  have hloaded : spacedSections.construct.2.loaded =
      [⟨true, 0x100, 0x102⟩, ⟨true, 0x110, 0x111⟩] := by
    rw [loaded, hextents]
    rfl
  obtain ⟨image, hout, -, hlen, -, hbytes⟩ :=
    image_placement hbuilt (Prod.ext hemit rfl) (by simp [hextents])
      (by
        rw [hloaded]
        rintro (_ | _ | i) a b ha hb
        · cases ha
          cases hb
          decide
        · cases hb
        · cases ha)
  refine ⟨_, _, _, hbuilt, Prod.ext hemit rfl, hloaded, image, ?_, hlen, ?_⟩
  · simpa [Sink.new, Sink.push] using hout
  · rw [hloaded] at hbytes
    obtain ⟨-, hbytes⟩ := hbytes _ _ rfl rfl
    obtain ⟨-, -, hzero⟩ := hbytes 0x105 (by decide) (by decide)
    exact hzero (by simp [Extent.Covers])

end ObjectFile

end Assembler
