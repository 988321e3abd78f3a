import Assembler.Proofs.RelocationTable
import Mathlib.Order.Bounds.Defs

/-!
# Sections in order

A section stands where it says, or at the first multiple of its alignment behind the section before
it, and never before that section stops. So the ranges of all sections follow each other. The one
thing that can go wrong with the order is a section that asks for a start before the stop of the one
before it, and no statement in a section fails that way (`Statement.constructAll_isOfPlacing`).

Main statement: `ObjectFile.sections_in_order`.
-/

namespace Assembler

/-- The first multiple of `a` from `stop` on. -/
theorem isLeast_add_neg_emod (stop : Int) {a : Nat} (ha : 0 < a) :
    IsLeast {x : Int | (a : Int) ∣ x ∧ stop ≤ x} (stop + -stop % a) := by
  have hnonneg := Int.emod_nonneg (-stop) (b := a) (by omega)
  refine ⟨⟨?_, by omega⟩, ?_⟩
  · rw [Int.emod_def]
    exact ⟨-(-stop / a), by rw [Int.mul_neg]; omega⟩
  · rintro x ⟨hdvd, hle⟩
    -- below it there is room for less than one multiple
    refine Int.not_lt.1 fun hlt => ?_
    have hsmall := Int.emod_lt_of_pos (-stop) (b := a) (by omega)
    have hself : (x - stop) % a = x - stop := Int.emod_eq_of_lt (by omega) (by omega)
    have hrest : (x - stop) % a = -stop % a := by
      rw [Int.sub_eq_add_neg, Int.add_emod, Int.emod_eq_zero_of_dvd hdvd, Int.zero_add,
        Int.emod_emod]
    omega

theorem Word.isPowerOfTwoNat_iff (n : Nat) : Word.isPowerOfTwoNat n ↔ n.isPowerOfTwo := by
  by_cases hn : n = 0
  · have hzero : ¬ (0 : Nat).isPowerOfTwo := by
      rintro ⟨k, hk⟩
      have hpos := Nat.two_pow_pos k
      omega
    simp [Word.isPowerOfTwoNat, hn, hzero]
  · simp [Word.isPowerOfTwoNat, hn, Nat.and_sub_one_eq_zero_iff_isPowerOfTwo hn]

/-! ## Errors of the first pass -/

/-- The errors of placing a statement. -/
def AssemblyError.IsOfPlacing : AssemblyError → Prop
  | .expression _ _ => True
  | .encoding _ _ => True
  | .duplicateSymbol _ => True
  | .argument (.notPowerOfTwo _) => True
  | .argument (.invalidSize _) => True
  | .argument .emptyIdentifier => True
  | _ => False

theorem Context.checkNew_isOfPlacing {ctx : Context} {identifier : String} {e : AssemblyError}
    (h : ctx.checkNew identifier = .error e) : e.IsOfPlacing := by
  unfold checkNew at h
  split at h
  · cases h
    trivial
  · split at h
    · cases h
      trivial
    · cases h

namespace DataDeclaration

theorem valueItem_isOfPlacing {size : DataSize} {expr : Expr} {e : AssemblyError}
    (h : valueItem size expr = .error e) : e.IsOfPlacing := by
  unfold valueItem at h
  split at h
  · split at h
    · cases h
    · cases h
      trivial
  · cases h

theorem mapM_valueItem_isOfPlacing {size : DataSize} {exprs : List Expr} {e : AssemblyError}
    (h : exprs.mapM (valueItem size) = .error e) : e.IsOfPlacing := by
  induction exprs with
  | nil => cases h
  | cons expr exprs ih =>
    rw [List.mapM_cons] at h
    rcases exceptBind_eq_error.1 h with h | ⟨item, -, h⟩
    · exact valueItem_isOfPlacing h
    · rcases exceptBind_eq_error.1 h with h | ⟨items, -, h⟩
      · exact ih h
      · cases h

/-- Data declarations fail for a reason of placing. -/
theorem items_isOfPlacing {declaration : DataDeclaration} {e : AssemblyError}
    (h : declaration.items = .error e) : e.IsOfPlacing := by
  cases declaration with
  | bytes content => cases h
  | values size exprs =>
    rw [items] at h
    split at h
    · exact mapM_valueItem_isOfPlacing h
    · cases h
      trivial
  | reserve size count =>
    simp only [items] at h
    split at h
    · cases h
    · cases h
      trivial

end DataDeclaration

namespace Statement

theorem padding_isOfPlacing {ctx : Context} {boundary : UInt64} {fill : UInt8} {e : AssemblyError}
    (h : padding ctx boundary fill = .error e) : e.IsOfPlacing := by
  unfold padding at h
  split at h
  · cases h
    trivial
  · cases h

/-- What stops a leaf is the test of its identifier, its expression, its boundary or its
encoding. -/
theorem place_isOfPlacing {leaf : Statement} {ctx after : Context} {e : AssemblyError}
    (h : leaf.place ctx = .error e after) : e.IsOfPlacing := by
  cases leaf with
  | label identifier kind =>
    rw [place_label_apply] at h
    split at h
    · cases h
    next hcheck =>
      cases h
      exact Context.checkNew_isOfPlacing hcheck
  | define identifier expr kind =>
    rw [place_define_apply] at h
    split at h
    · split at h
      · cases h
      · cases h
        trivial
    next hcheck =>
      cases h
      exact Context.checkNew_isOfPlacing hcheck
  | external identifier =>
    rw [place_external_apply] at h
    split at h
    · cases h
    next hcheck =>
      cases h
      exact Context.checkNew_isOfPlacing hcheck
  | align boundary fill =>
    rw [place_align_apply] at h
    split at h
    · cases h
    next hpadding =>
      cases h
      exact padding_isOfPlacing hpadding
  | data declaration =>
    rw [place_data_apply] at h
    split at h
    · cases h
    next hitems =>
      cases h
      exact DataDeclaration.items_isOfPlacing hitems
  | comment text => cases h
  | group children => cases h
  | instruction i =>
    rw [place_instruction_apply] at h
    split at h
    · cases h
    · cases h
      trivial

/-- A walk over leaves fails in one of them. -/
theorem constructAll_isOfPlacing {l : List Statement} (hl : ∀ leaf ∈ l, leaf.IsLeaf)
    {ctx after : Context} {e : AssemblyError} (h : constructAll l ctx = .error e after) :
    e.IsOfPlacing := by
  induction l generalizing ctx with
  | nil => cases h
  | cons leaf rest ih =>
    rw [constructAll, construct_of_isLeaf (hl leaf List.mem_cons_self)] at h
    rcases bind_eq_error.1 h with h | ⟨items, mid, -, h⟩
    · exact place_isOfPlacing (constructLeaf_eq_error.1 h).1
    · rcases bind_eq_error.1 h with h | ⟨more, last, -, h⟩
      · exact ih (fun x hx => hl x (List.mem_cons_of_mem leaf hx)) h
      · cases h

end Statement

namespace Section

/-- A section that cannot be laid out has no start, or a leaf that cannot be placed, or no image for
what its leaves make. -/
theorem construct_error_cases {s : Section} {id : SectionId} {stop : Word} {ctx after : Context}
    {e : AssemblyError} (h : s.construct id stop ctx = .error e after) :
    (∃ cause, s.startAfter stop = .error cause ∧ e = .argument cause) ∨ e.IsOfPlacing ∨
      e = .argument (.initializedBss s.name) := by
  unfold construct at h
  cases hstart : s.startAfter stop with
  | error cause =>
    rw [hstart] at h
    cases h
    exact .inl ⟨cause, rfl, rfl⟩
  | ok start =>
    refine .inr ?_
    simp only [hstart, bind_eq_error, modify_apply] at h
    rw [Statement.constructAll_allLeaves] at h
    obtain h | ⟨_, u, -, h | ⟨items, mid, -, h⟩⟩ := h
    · cases h
    · exact .inl (Statement.constructAll_isOfPlacing (Statement.isLeaf_of_mem_allLeaves _) h)
    · split at h
      · cases h
        exact .inr rfl
      · cases h

/-- A section overlaps the one before it when it asks for a start before that one stops. -/
theorem startAfter_eq_overlapping_iff {s : Section} {stop stop' start : Word} {name : String} :
    s.startAfter stop = .error (.overlappingSection name start stop') ↔
      s.alignment.toNat.isPowerOfTwo ∧ s.address = some start ∧ start.toInt < stop.toInt ∧
        name = s.name ∧ stop' = stop := by
  rw [← Word.isPowerOfTwoNat_iff]
  unfold startAfter
  cases hpow : Word.isPowerOfTwoNat s.alignment.toNat with
  | false => simp
  | true =>
    cases haddress : s.address with
    | none => simp
    | some fixed =>
      by_cases hlt : fixed.toInt < stop.toInt
      · simp only [Bool.not_true, Bool.false_eq_true, ↓reduceIte, hlt]
        grind
      · simp only [Bool.not_true, Bool.false_eq_true, ↓reduceIte, hlt]
        grind

/-- A section is laid out over the one before it if and only if its start is: nothing in it fails
like that. -/
theorem construct_overlapping_iff {s : Section} {id : SectionId} {stop stop' start : Word}
    {name : String} {ctx : Context} :
    (∃ after, s.construct id stop ctx =
        .error (.argument (.overlappingSection name start stop')) after) ↔
      s.startAfter stop = .error (.overlappingSection name start stop') := by
  constructor
  · rintro ⟨after, h⟩
    obtain ⟨cause, hstart, hcause⟩ | hplacing | hbss := construct_error_cases h
    · cases hcause
      exact hstart
    · exact hplacing.elim
    · cases hbss
  · intro h
    refine ⟨ctx, ?_⟩
    unfold construct
    rw [h]
    rfl

end Section

/-- An address lies in the range of a place. -/
def PlacedSection.Covers (p : PlacedSection) (address : Int) : Prop :=
  p.start.toInt ≤ address ∧ address < p.stop.toInt

namespace ObjectFile

/-- A run over sections that fails does so in one of them, behind others that are laid out. -/
theorem exists_of_constructSections_error {l : List Section} {id : Nat} {stop : Word}
    {ctx : Context} {e : AssemblyError} (h : (constructSections id stop [] ctx l).1 = .error e) :
    ∃ k s before mid after, l[k]? = some s ∧
      constructSections id stop [] ctx (l.take k) = (.ok (), mid, before) ∧
      s.construct (id + k) (stopAfter stop before) mid = .error e after := by
  induction l generalizing id stop ctx with
  | nil => cases h
  | cons s l ih =>
    rw [constructSections] at h
    cases hs : s.construct id stop ctx with
    | error e' after =>
      rw [hs] at h
      cases h
      exact ⟨0, s, [], ctx, after, rfl, rfl, hs⟩
    | ok p next =>
      rw [hs] at h
      dsimp only at h
      rw [constructSections_placed] at h
      obtain ⟨k, s', before, mid, after, hk, hbefore, herror⟩ := ih h
      refine ⟨k + 1, s', p :: before, mid, after, hk, ?_, ?_⟩
      · rw [List.take_succ_cons, constructSections_cons_eq_ok]
        exact ⟨p, next, before, hs, hbefore, rfl⟩
      · rw [stopAfter_cons, show id + (k + 1) = id + 1 + k by omega]
        exact herror

/-! ## The order -/

section IsExact

variable {stop : Word} {l : List (Section × PlacedSection)}

/-- Every section starts where the integers say, behind the sections before it. -/
theorem IsExact.start_eq (h : IsExact stop.toInt l) {k : Nat} {s : Section} {p : PlacedSection}
    (hk : l[k]? = some (s, p)) :
    p.start.toInt = s.exactStart (stopAfter stop ((l.take k).map Prod.snd)).toInt ∧
      (stopAfter stop ((l.take k).map Prod.snd)).toInt ≤ p.start.toInt := by
  induction l generalizing stop k with
  | nil => cases hk
  | cons sp l ih =>
    obtain ⟨hstart, hle, -, hrest⟩ := h
    cases k with
    | zero =>
      cases hk
      exact ⟨hstart, hle⟩
    | succ k =>
      rw [List.take_succ_cons, List.map_cons, stopAfter_cons]
      exact ih hrest hk

/-- Where the words stop, the integers do. -/
theorem IsExact.toInt_stopAfter (h : IsExact stop.toInt l) :
    (stopAfter stop (l.map Prod.snd)).toInt =
      ((layout stop.toInt l).getLast?.map Extent.stop).getD stop.toInt := by
  rw [h.layout_eq_map, stopAfter, List.getLast?_map, List.getLast?_map]
  cases l.getLast? <;> rfl

theorem IsExact.pairwise {stop : Int} (h : IsExact stop l) :
    l.Pairwise fun a b => a.2.stop.toInt ≤ b.2.start.toInt := by
  induction l generalizing stop with
  | nil => exact .nil
  | cons sp l ih =>
    obtain ⟨-, -, -, hrest⟩ := h
    exact .cons (fun _ hq => hrest.le_start hq) (ih hrest)

end IsExact

/-- Section `k` stands at `p`, behind one that stops at `stop`. -/
structure IsArranged (obj : ObjectFile) (k : SectionId) (s : Section) (p : PlacedSection)
    (stop : Int) : Prop where
  fixed : ∀ address, s.address = some address → p.start = address
  aligned : s.address = none →
    IsLeast {x : Int | (s.alignment.toNat : Int) ∣ x ∧ stop ≤ x} p.start.toInt
  behind : stop ≤ p.start.toInt
  start_le_stop : p.start.toInt ≤ p.stop.toInt
  length : p.stop.toInt - p.start.toInt = totalLength p.items
  symbol : ∃ symbol, obj.context.symbols.find? (Context.startName k) = some symbol ∧
    symbol.value = p.start ∧ symbol.home = some k

/-- After the first pass a section stands where its alignment or its address puts it, behind the one
before it. -/
theorem isArranged_of_construct {obj built : ObjectFile} (h : obj.construct = (.ok (), built))
    (hbound : ∀ e ∈ built.extents, e.stop < 2 ^ 127) {k : SectionId} {s : Section}
    {p : PlacedSection} (hs : built.sections[k]? = some s) (hp : built.placed[k]? = some p) :
    built.IsArranged k s p (stopAfter 0 (built.placed.take k)).toInt := by
  have hlaid := IsLaidOut.of_construct h
  have hexact : IsExact (0 : Word).toInt (built.sections.zip built.placed) :=
    isExact_of_construct h hbound
  have hk : (built.sections.zip built.placed)[k]? = some (s, p) :=
    List.getElem?_zip_eq_some.2 ⟨hs, hp⟩
  obtain ⟨stop, mid, next, rest, hsection, -⟩ := exists_construct_of_placed h hs hp
  have hpos := Section.alignment_pos_of_startAfter (Section.construct_ok hsection).1
  have hstop := hexact.stop_eq (List.mem_of_getElem? hk)
  obtain ⟨hstart, hle⟩ := hexact.start_eq hk
  rw [List.map_take, List.map_snd_zip (Nat.le_of_eq hlaid.length)] at hstart hle
  refine ⟨fun address haddress => ?_, fun haddress => ?_, hle, by omega, by omega, ?_⟩
  · rw [Section.exactStart, haddress] at hstart
    exact BitVec.eq_of_toInt_eq hstart
  · rw [Section.exactStart, haddress] at hstart
    rw [hstart]
    exact isLeast_add_neg_emod _ hpos
  · obtain ⟨file, hsymbol⟩ := find?_startName_of_construct h hs hp
    exact ⟨_, hsymbol, rfl, rfl⟩

/-- The first pass lays out the sections before section `k`. -/
def LaysOutBefore (obj : ObjectFile) (k : Nat) (before : List PlacedSection) : Prop :=
  ∃ mid, constructSections 0 0 [] (.new obj.context.mode) (obj.sections.take k) =
    (.ok (), mid, before)

/-- The first pass of an object file that is new.

* If it succeeds, and in exact integers the layout stays below `2 ^ 127`, then every section has a
  place, behind the one before it. The ranges of the places follow each other, so that no address is
  in two of them.
* It fails for a section that overlaps the one before it if and only if the sections before are laid
  out, and the section has a power of two for its alignment and asks for a start before they stop.
* That stop is the one in exact integers, while they stay below `2 ^ 127`. -/
theorem sections_in_order {obj : ObjectFile} (hfresh : obj.stage = .fresh) :
    (∀ built, obj.construct = (.ok (), built) → (∀ e ∈ built.extents, e.stop < 2 ^ 127) →
      built.placed.length = obj.sections.length ∧
      (∀ k s p, obj.sections[k]? = some s → built.placed[k]? = some p →
        built.IsArranged k s p (stopAfter 0 (built.placed.take k)).toInt) ∧
      built.placed.Pairwise fun p q =>
        p.stop.toInt ≤ q.start.toInt ∧ ∀ address, p.Covers address → ¬ q.Covers address) ∧
    (∀ name start stop,
      obj.construct.1 = .error (.argument (.overlappingSection name start stop)) ↔
        ∃ k s before, obj.sections[k]? = some s ∧ obj.LaysOutBefore k before ∧
          s.alignment.toNat.isPowerOfTwo ∧ s.address = some start ∧ start.toInt < stop.toInt ∧
          name = s.name ∧ stop = stopAfter 0 before) ∧
    (∀ k before, obj.LaysOutBefore k before →
      (∀ e ∈ layout 0 ((obj.sections.take k).zip before), e.stop < 2 ^ 127) →
      (stopAfter 0 before).toInt =
        ((layout 0 ((obj.sections.take k).zip before)).getLast?.map Extent.stop).getD 0) := by
  refine ⟨?_, ?_, ?_⟩
  · intro built hbuilt hbound
    have hlaid := IsLaidOut.of_construct hbuilt
    have hsections := (construct_ok hbuilt).2.1
    refine ⟨by rw [hlaid.length, hsections], ?_, ?_⟩
    · rw [← hsections]
      intro k s p hs hp
      exact isArranged_of_construct hbuilt hbound hs hp
    · rw [← List.map_snd_zip (Nat.le_of_eq hlaid.length), List.pairwise_map]
      refine (isExact_of_construct hbuilt hbound).pairwise.imp fun hle => ⟨hle, ?_⟩
      rintro address ⟨-, hlt⟩ ⟨hge, -⟩
      omega
  · intro name start stop
    rw [construct_of_fresh hfresh]
    dsimp only
    constructor
    · intro h
      obtain ⟨k, s, before, mid, after, hk, hbefore, herror⟩ := exists_of_constructSections_error h
      have hstart := Section.construct_overlapping_iff.1 ⟨after, herror⟩
      obtain ⟨hpow, haddress, hlt, hname, hstop⟩ := Section.startAfter_eq_overlapping_iff.1 hstart
      exact ⟨k, s, before, hk, ⟨mid, hbefore⟩, hpow, haddress, hstop ▸ hlt, hname, hstop⟩
    · rintro ⟨k, s, before, hk, ⟨mid, hbefore⟩, hpow, haddress, hlt, rfl, rfl⟩
      have hstart := Section.startAfter_eq_overlapping_iff.2 ⟨hpow, haddress, hlt, rfl, rfl⟩
      obtain ⟨after, herror⟩ := Section.construct_overlapping_iff.2 hstart
      exact constructSections_error hbefore hk herror
  · rintro k before ⟨mid, hbefore⟩ hbound
    have hexact : IsExact (0 : Word).toInt _ := constructSections_isExact hbefore (by decide) hbound
    have hlength := (constructSections_isFilled hbefore).1
    have hstop := hexact.toInt_stopAfter
    rwa [List.map_snd_zip (Nat.le_of_eq hlength)] at hstop

/-- Three bytes of code at `0x100`, and space at a multiple of 16. -/
def alignedSpace : ObjectFile :=
  let text := { Section.new "text" .text with address := some 0x100, contents :=
    [.data (.bytes [1, 2, 3])] }
  let bss := { Section.new "bss" .bss with alignment := 16, contents :=
    [.data (.reserve .bit32 2)] }
  ((ObjectFile.new .bit32 .flat).addSection text).addSection bss

/-- The space stands at `0x110`, the first multiple of 16 behind the code. Data that ask for the
last byte of it are refused. -/
theorem sections_in_order_alignedSpace :
    (∃ built s p, alignedSpace.construct = (.ok (), built) ∧ alignedSpace.sections[1]? = some s ∧
      built.placed[1]? = some p ∧ p.start = 0x110 ∧ p.stop = 0x118 ∧
      built.IsArranged 1 s p 0x103) ∧
    (alignedSpace.addSection { Section.new "data" .data with address := some 0x117 }).construct.1 =
      .error (.argument (.overlappingSection "data" 0x117 0x118)) := by
  constructor
  · have hbuilt : alignedSpace.construct = (.ok (), alignedSpace.construct.2) :=
      Prod.ext (eq_ok_of_toOption (by decide +kernel)) rfl
    have hextents : alignedSpace.construct.2.extents =
        [⟨true, 0x100, 0x103⟩, ⟨false, 0x110, 0x118⟩] := by decide +kernel
    have hfresh : alignedSpace.stage = .fresh := rfl
    obtain ⟨-, harranged, -⟩ := (sections_in_order hfresh).1 _ hbuilt (by simp [hextents])
    exact ⟨_, _, _, hbuilt, rfl, rfl, rfl, rfl, harranged 1 _ _ rfl rfl⟩
  · refine ((sections_in_order rfl).2.1 _ _ _).2 ⟨2, _, _, rfl, ⟨_, rfl⟩, ?_, rfl, ?_, rfl, rfl⟩
    · exact ⟨0, rfl⟩
    · decide +kernel

end ObjectFile

end Assembler
