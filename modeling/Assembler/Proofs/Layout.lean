import Assembler.Proofs.FirstPass
import Mathlib.Algebra.Group.Int.Defs

/-!
# The layout in exact integers

Addresses are words and wrap. `ObjectFile.layout` lays the sections out once more in integers: each
starts where it says, or at the first multiple of its alignment after the section before it, and
takes as many addresses as its items have bytes. While that stays below `2 ^ 127`, the words that
the first pass computes stand for the same integers (`IsExact.layout_eq_map`).
-/

namespace Assembler

/-- A section as a range of addresses. -/
structure Extent where
  /-- Whether the section is part of the image. -/
  isLoaded : Bool
  start : Int
  stop : Int
deriving DecidableEq, Repr

namespace Extent

/-- An address lies in the range. -/
def Covers (e : Extent) (address : Int) : Prop := e.start ≤ address ∧ address < e.stop

end Extent

namespace Section

/-- Start of a section after one that stops at `stop`, in integers. -/
def exactStart (s : Section) (stop : Int) : Int :=
  match s.address with
  | some start => start.toInt
  | none => stop + -stop % s.alignment.toNat

/-- The range that the first pass gave to a section. -/
def extent (s : Section) (p : PlacedSection) : Extent :=
  ⟨s.kind ≠ .bss, p.start.toInt, p.stop.toInt⟩

end Section

namespace ObjectFile

/-- The ranges of sections after one that stops at `stop`, in integers. -/
def layout (stop : Int) : List (Section × PlacedSection) → List Extent
  | [] => []
  | (s, p) :: rest =>
    let start := s.exactStart stop
    ⟨s.kind ≠ .bss, start, start + totalLength p.items⟩ ::
      layout (start + totalLength p.items) rest

/-- The ranges of all sections, in integers. -/
def extents (obj : ObjectFile) : List Extent := layout 0 (obj.sections.zip obj.placed)

/-- The ranges of the sections that are part of the image. -/
def loaded (obj : ObjectFile) : List Extent := obj.extents.filter Extent.isLoaded

end ObjectFile

/-! ## Words that stand for their integers -/

theorem Word.toInt_ofNat {n : Nat} (hn : (n : Int) < 2 ^ 127) : (Word.ofNat n).toInt = n := by
  rw [Word.ofNat, BitVec.toInt_ofNat']
  exact Int.bmod_eq_of_le (by omega) (by omega)

theorem Word.toInt_add_ofNat {w : Word} {n : Nat} (hw : 0 ≤ w.toInt)
    (hn : w.toInt + n < 2 ^ 127) : (w + .ofNat n).toInt = w.toInt + n := by
  rw [BitVec.toInt_add, Word.toInt_ofNat (by omega)]
  exact Int.bmod_eq_of_le (by omega) (by omega)

theorem Word.pos_of_isPowerOfTwoNat {n : Nat} (h : Word.isPowerOfTwoNat n) : 0 < n := by
  apply Nat.pos_of_ne_zero
  intro hzero
  simp [Word.isPowerOfTwoNat, hzero] at h

/-- The padding is the remainder that the integers ask for. -/
theorem Word.toInt_padding {boundary : UInt64} (hpos : 0 < boundary.toNat) (w : Word) :
    (w.padding boundary).toInt = -w.toInt % boundary.toNat := by
  have hpad : ((boundary.toNat : Int) - w.toInt % boundary.toNat) % boundary.toNat =
      -w.toInt % boundary.toNat := by
    rw [Int.sub_emod, Int.emod_emod, ← Int.sub_emod, Int.sub_eq_add_neg, Int.add_emod_left]
  have hnonneg := Int.emod_nonneg (-w.toInt) (b := boundary.toNat) (by omega)
  have hsmall := Int.emod_lt_of_pos (-w.toInt) (b := boundary.toNat) (by omega)
  have hboundary : boundary.toNat < 2 ^ 64 := boundary.toNat_lt
  rw [Word.padding, if_neg (by omega), hpad, Word.ofInt, BitVec.toInt_ofInt]
  exact Int.bmod_eq_of_le (by omega) (by omega)

theorem Word.toInt_align {w : Word} {boundary : UInt64} (hpos : 0 < boundary.toNat)
    (hlt : w.toInt + -w.toInt % boundary.toNat < 2 ^ 127) :
    (w.align boundary).toInt = w.toInt + -w.toInt % boundary.toNat := by
  have hnonneg := Int.emod_nonneg (-w.toInt) (b := boundary.toNat) (by omega)
  have hlow : -2 ^ 127 ≤ w.toInt := BitVec.le_toInt w
  rw [Word.align, BitVec.toInt_add, Word.toInt_padding hpos]
  exact Int.bmod_eq_of_le (by omega) (by omega)

theorem Word.toInt_sub_of_le {start stop : Word} (hle : start.toInt ≤ stop.toInt)
    (hlt : stop.toInt - start.toInt < 2 ^ 127) :
    (stop - start).toInt = stop.toInt - start.toInt := by
  rw [BitVec.toInt_sub]
  exact Int.bmod_eq_of_le (by omega) (by omega)

/-- A distance that 64 bits hold is the number of bytes of the span. -/
theorem span_eq {start stop : Word} (hle : start.toInt ≤ stop.toInt)
    (hlt : stop.toInt - start.toInt < 2 ^ 64) :
    (span start stop : Int) = stop.toInt - start.toInt := by
  have hpow : Word.pow2 64 = 2 ^ 64 := rfl
  rw [span, Word.toCount?, Word.toInt_sub_of_le hle (by omega), hpow, if_pos (by omega),
    Option.getD_some]
  omega

/-- A distance that 64 bits do not hold spans no bytes. -/
theorem span_of_wide {start stop : Word} (hstart : 0 ≤ start.toInt)
    (hwide : 2 ^ 64 ≤ stop.toInt - start.toInt) : span start stop = 0 := by
  have hlt : stop.toInt < 2 ^ 127 := BitVec.toInt_lt
  have hpow : Word.pow2 64 = 2 ^ 64 := rfl
  rw [span, Word.toCount?, Word.toInt_sub_of_le (by omega) (by omega), hpow, if_neg (by omega),
    Option.getD_none]

namespace Section

theorem alignment_pos_of_startAfter {s : Section} {stop start : Word}
    (h : s.startAfter stop = .ok start) : 0 < s.alignment.toNat := by
  unfold startAfter at h
  split at h
  · cases h
  next hpow => exact Word.pos_of_isPowerOfTwoNat (by simpa using hpow)

/-- A section starts where the integers say, and not before the section before it stops. -/
theorem startAfter_toInt {s : Section} {stop start : Word} (h : s.startAfter stop = .ok start)
    (hlt : s.exactStart stop.toInt < 2 ^ 127) :
    start.toInt = s.exactStart stop.toInt ∧ stop.toInt ≤ start.toInt := by
  have hpos := alignment_pos_of_startAfter h
  unfold startAfter at h
  split at h
  · cases h
  · unfold exactStart at hlt ⊢
    cases haddr : s.address with
    | some fixed =>
      simp only [haddr] at h
      split at h
      · cases h
      next hle =>
        cases h
        exact ⟨rfl, by omega⟩
    | none =>
      simp only [haddr] at h hlt ⊢
      cases h
      have hnonneg := Int.emod_nonneg (-stop.toInt) (b := s.alignment.toNat) (by omega)
      have halign := Word.toInt_align hpos hlt
      exact ⟨halign, by omega⟩

end Section

namespace ObjectFile

/-- The words of a layout stand for the integers of the exact one, after a section that stops at
`stop`. -/
def IsExact (stop : Int) : List (Section × PlacedSection) → Prop
  | [] => True
  | (s, p) :: rest =>
    p.start.toInt = s.exactStart stop ∧ stop ≤ p.start.toInt ∧
      p.stop.toInt = p.start.toInt + totalLength p.items ∧ IsExact p.stop.toInt rest

theorem layout_cons (stop : Int) (s : Section) (p : PlacedSection)
    (rest : List (Section × PlacedSection)) :
    layout stop ((s, p) :: rest) =
      ⟨s.kind ≠ .bss, s.exactStart stop, s.exactStart stop + totalLength p.items⟩ ::
        layout (s.exactStart stop + totalLength p.items) rest := rfl

/-- Below `2 ^ 127` the first pass computes the exact layout. -/
theorem constructSections_isExact {l : List Section} {id : SectionId} {stop : Word}
    {ctx after : Context} {placed : List PlacedSection}
    (h : constructSections id stop [] ctx l = (.ok (), after, placed)) (hstop : 0 ≤ stop.toInt)
    (hbound : ∀ e ∈ layout stop.toInt (l.zip placed), e.stop < 2 ^ 127) :
    IsExact stop.toInt (l.zip placed) := by
  induction l generalizing id stop ctx placed with
  | nil => trivial
  | cons s l ih =>
    obtain ⟨p, next, rest, hp, hrest, rfl⟩ := constructSections_cons_eq_ok.1 h
    rw [List.zip_cons_cons, layout_cons] at hbound
    -- the bound on the stop of the section bounds its start, too
    have hfirst : s.exactStart stop.toInt + totalLength p.items < 2 ^ 127 :=
      hbound _ List.mem_cons_self
    obtain ⟨hstart, hle⟩ := Section.startAfter_toInt (Section.construct_ok hp).1 (by omega)
    have hpstop : p.stop.toInt = p.start.toInt + totalLength p.items := by
      rw [Section.construct_isFilled hp, advance_eq]
      exact Word.toInt_add_ofNat (by omega) (by omega)
    refine ⟨hstart, hle, hpstop, ih hrest (by omega) ?_⟩
    intro e he
    rw [hpstop, hstart] at he
    exact hbound e (List.mem_cons_of_mem _ he)

theorem isExact_of_construct {obj built : ObjectFile} (h : obj.construct = (.ok (), built))
    (hbound : ∀ e ∈ built.extents, e.stop < 2 ^ 127) :
    IsExact 0 (built.sections.zip built.placed) := by
  obtain ⟨hrun, hsections, -⟩ := construct_ok h
  rw [hsections]
  exact constructSections_isExact hrun (by decide) (by rwa [← hsections])

section IsExact

variable {stop : Int} {l : List (Section × PlacedSection)}

theorem IsExact.layout_eq_map (h : IsExact stop l) :
    layout stop l = l.map fun sp => sp.1.extent sp.2 := by
  induction l generalizing stop with
  | nil => rfl
  | cons sp l ih =>
    obtain ⟨s, p⟩ := sp
    obtain ⟨hstart, -, hstop, hrest⟩ := h
    rw [layout_cons, ← hstart, ← hstop, ih hrest]
    rfl

theorem IsExact.stop_eq (h : IsExact stop l) {s : Section} {p : PlacedSection}
    (hp : (s, p) ∈ l) : p.stop.toInt = p.start.toInt + totalLength p.items := by
  induction l generalizing stop with
  | nil => cases hp
  | cons sp l ih =>
    obtain ⟨-, -, hstop, hrest⟩ := h
    rcases List.mem_cons.1 hp with rfl | hp
    · exact hstop
    · exact ih hrest hp

theorem IsExact.le_start (h : IsExact stop l) {s : Section} {p : PlacedSection}
    (hp : (s, p) ∈ l) : stop ≤ p.start.toInt := by
  induction l generalizing stop with
  | nil => cases hp
  | cons sp l ih =>
    obtain ⟨-, hle, hstop, hrest⟩ := h
    rcases List.mem_cons.1 hp with rfl | hp
    · exact hle
    · have hlater := ih hrest hp
      omega

end IsExact

end ObjectFile

end Assembler
