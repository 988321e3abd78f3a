import Assembler.Proofs.Expressions
import Assembler.Proofs.Layout
import Assembler.Proofs.Placeholders
import Mathlib.Algebra.Group.Nat.Defs

/-!
# The table of relocations

Relocations are listed while fields are written, so that they come in the order of the fields. The
fields of an object file stand at spots that the first pass has settled: in every section one behind
the other (`sectionSpots_inOrder`). A run of the second pass, however far it comes, lists
relocations at some of these spots in their order, and where it succeeds it has written zeros there
(`Emit.Covers`). Main statement: `ObjectFile.relocation_table`.
-/

namespace Assembler

/-- Bytes of a section, counted from its start. -/
structure Spot where
  home : SectionId
  offset : Word
  size : DataSize

/-- The bytes that a relocation is for. -/
def Relocation.spot (r : Relocation) : Spot := ⟨r.home, r.offset, r.size⟩

/-! ## Spots in order -/

namespace Spot

/-- A spot ends before another one starts, in an earlier section or in the same. -/
def Precedes (x y : Spot) : Prop :=
  x.home < y.home ∨ x.home = y.home ∧ x.offset.toInt < y.offset.toInt ∧
    x.offset.toInt + x.size.bytes ≤ y.offset.toInt

/-- Spots one behind the other in section `k`, from offset `a` up to offset `b`. -/
structure InOrder (k : SectionId) (a b : Nat) (l : List Spot) : Prop where
  home : ∀ x ∈ l, x.home = k
  start : ∀ x ∈ l, (a : Int) ≤ x.offset.toInt
  stop : ∀ x ∈ l, x.offset.toInt + x.size.bytes ≤ b
  size : ∀ x ∈ l, 0 < x.size.bytes
  sorted : l.Pairwise Precedes

namespace InOrder

variable {k : SectionId} {a b c : Nat} {l m : List Spot}

theorem nil : InOrder k a b [] := ⟨nofun, nofun, nofun, nofun, .nil⟩

theorem singleton {size : DataSize} (hsize : 0 < size.bytes) (hb : a + size.bytes < 2 ^ 127) :
    InOrder k a (a + size.bytes) [⟨k, .ofNat a, size⟩] := by
  have hoffset : (Word.ofNat a).toInt = a := Word.toInt_ofNat (by omega)
  refine ⟨by simp, ?_, ?_, by simpa using hsize, List.pairwise_singleton _ _⟩ <;>
    simp [hoffset]

theorem widen (h : InOrder k b c l) (hab : a ≤ b) : InOrder k a c l := by
  refine { h with start := fun x hx => ?_ }
  have hstart := h.start x hx
  omega

/-- Spots behind spots are in order. -/
theorem append (hl : InOrder k a b l) (hm : InOrder k b c m) (hab : a ≤ b) (hbc : b ≤ c) :
    InOrder k a c (l ++ m) := by
  refine ⟨?_, ?_, ?_, ?_, List.pairwise_append.2 ⟨hl.sorted, hm.sorted, ?_⟩⟩
  · exact fun x hx => (List.mem_append.1 hx).elim (hl.home x) (hm.home x)
  · exact fun x hx => (List.mem_append.1 hx).elim (hl.start x) ((hm.widen hab).start x)
  · intro x hx
    rcases List.mem_append.1 hx with hx | hx
    · have hstop := hl.stop x hx
      omega
    · exact hm.stop x hx
  · exact fun x hx => (List.mem_append.1 hx).elim (hl.size x) (hm.size x)
  · intro x hx y hy
    have hstop := hl.stop x hx
    have hstart := hm.start y hy
    have hsize := hl.size x hx
    exact .inr ⟨(hl.home x hx).trans (hm.home y hy).symm, by omega, by omega⟩

end InOrder

end Spot

open Spot

/-- The spots of fields one behind the other, the first of them `origin` bytes into section `k`. -/
def fieldSpots (k : SectionId) (origin : Nat) : List Field → List Spot
  | [] => []
  | f :: fields => ⟨k, .ofNat origin, f.size⟩ :: fieldSpots k (origin + f.size.bytes) fields

/-- The spots of the fields of items one behind the other. -/
def itemSpots (k : SectionId) (origin : Nat) : List Item → List Spot
  | [] => []
  | item :: items =>
    fieldSpots k (origin + item.fixedBytes.length) item.fields ++
      itemSpots k (origin + item.length) items

/-- The spots of the fields of sections from `k` on. -/
def sectionSpots (k : SectionId) : List PlacedSection → List Spot
  | [] => []
  | p :: placed => itemSpots k 0 p.items ++ sectionSpots (k + 1) placed

theorem fieldSpots_inOrder {fields : List Field} (hsize : ∀ f ∈ fields, 0 < f.size.bytes)
    (k : SectionId) (origin : Nat) (hshort : origin + Encoded.fieldsLength fields < 2 ^ 127) :
    InOrder k origin (origin + Encoded.fieldsLength fields) (fieldSpots k origin fields) := by
  induction fields generalizing origin with
  | nil => exact .nil
  | cons f fields ih =>
    rw [Encoded.fieldsLength, ← Nat.add_assoc] at hshort ⊢
    have hrest := ih (fun g hg => hsize g (List.mem_cons_of_mem f hg)) _ hshort
    have hfirst : InOrder k origin (origin + f.size.bytes) [⟨k, .ofNat origin, f.size⟩] :=
      .singleton (hsize f List.mem_cons_self) (by omega)
    exact hfirst.append hrest (by omega) (by omega)

theorem Item.length_eq (item : Item) :
    item.length = item.fixedBytes.length + Encoded.fieldsLength item.fields := by
  cases item <;> simp [length, fixedBytes, fields, Encoded.fieldsLength, Encoded.length]

/-- The spots of items are in order, if the section is short enough to count offsets in. -/
theorem itemSpots_inOrder {items : List Item}
    (hsize : ∀ item ∈ items, ∀ f ∈ item.fields, 0 < f.size.bytes) (k : SectionId) (origin : Nat)
    (hshort : origin + totalLength items < 2 ^ 127) :
    InOrder k origin (origin + totalLength items) (itemSpots k origin items) := by
  induction items generalizing origin with
  | nil => exact .nil
  | cons item items ih =>
    rw [totalLength_cons, ← Nat.add_assoc] at hshort ⊢
    have hlength := item.length_eq
    have hfields := fieldSpots_inOrder (hsize item List.mem_cons_self) k
      (origin + item.fixedBytes.length) (by omega)
    have hstop : origin + item.fixedBytes.length + Encoded.fieldsLength item.fields =
        origin + item.length := by omega
    rw [hstop] at hfields
    have hrest := ih (fun x hx => hsize x (List.mem_cons_of_mem item hx)) _ hshort
    exact (hfields.widen (Nat.le_add_right _ _)).append hrest (by omega) (by omega)

/-- The fields of sections stand one behind the other, each in its own section. -/
theorem sectionSpots_inOrder {placed : List PlacedSection}
    (hsize : ∀ p ∈ placed, ∀ item ∈ p.items, ∀ f ∈ item.fields, 0 < f.size.bytes)
    (hshort : ∀ p ∈ placed, totalLength p.items < 2 ^ 127) (k : SectionId) :
    (sectionSpots k placed).Pairwise Precedes ∧
      ∀ x ∈ sectionSpots k placed, ∃ n p, x.home = k + n ∧ placed[n]? = some p ∧
        x ∈ itemSpots x.home 0 p.items ∧ 0 ≤ x.offset.toInt ∧
        x.offset.toInt + x.size.bytes ≤ totalLength p.items := by
  induction placed generalizing k with
  | nil => exact ⟨.nil, nofun⟩
  | cons p placed ih =>
    obtain ⟨hsorted, hbounds⟩ := ih (fun q hq => hsize q (List.mem_cons_of_mem p hq))
      (fun q hq => hshort q (List.mem_cons_of_mem p hq)) (k + 1)
    have hfirst := itemSpots_inOrder (hsize p List.mem_cons_self) k 0
      (by simpa using hshort p List.mem_cons_self)
    rw [Nat.zero_add] at hfirst
    constructor
    · refine List.pairwise_append.2 ⟨hfirst.sorted, hsorted, fun x hx y hy => .inl ?_⟩
      obtain ⟨n, -, hhome, -⟩ := hbounds y hy
      rw [hfirst.home x hx, hhome]
      exact Nat.lt_add_right n (Nat.lt_succ_self k)
    · intro x hx
      rcases List.mem_append.1 hx with hx | hx
      · have hhome := hfirst.home x hx
        exact ⟨0, p, hhome, rfl, hhome ▸ hx, hfirst.start x hx, hfirst.stop x hx⟩
      · obtain ⟨n, q, hhome, hq, hrest⟩ := hbounds x hx
        exact ⟨n + 1, q, by rw [hhome, Nat.add_assoc, Nat.add_comm 1 n], hq, hrest⟩

/-- Without fields there are no spots. -/
theorem itemSpots_eq_nil {items : List Item} (h : ∀ item ∈ items, item.fields = []) (k : SectionId)
    (origin : Nat) : itemSpots k origin items = [] := by
  induction items generalizing origin with
  | nil => rfl
  | cons item items ih =>
    rw [itemSpots, h item List.mem_cons_self,
      ih (fun x hx => h x (List.mem_cons_of_mem item hx))]
    rfl

/-! ## Sections at their starts -/

namespace Context

/-- The start symbol of section `k` is at `start`. -/
def Locates (k : SectionId) (start : Word) (ctx : Context) : Prop :=
  (ctx.symbols.find? (startName k)).map Symbol.value = some start

theorem Locates.grow {k : SectionId} {start : Word} {ctx after : Context}
    (h : ctx.Locates k start) (hgrows : ctx.symbols.Grows after.symbols) :
    after.Locates k start := by
  obtain ⟨s, hs, hvalue⟩ := Option.map_eq_some_iff.1 h
  rw [Locates, hgrows.isPrefix.find? hs, Option.map_some, hvalue]

/-- The context is in section `k`, which starts at `start`. -/
structure StartsAt (k : SectionId) (start : Word) (ctx : Context) : Prop where
  current : ctx.current = some k
  locates : ctx.Locates k start

/-- A later context of the same section starts where the section does. -/
theorem StartsAt.grow {k : SectionId} {start : Word} {ctx after : Context}
    (h : ctx.StartsAt k start)
    (hafter : ctx.symbols.Grows after.symbols ∧ after.current = ctx.current) :
    after.StartsAt k start :=
  ⟨hafter.2.trans h.current, h.locates.grow hafter.1⟩

theorem StartsAt.sectionStart_eq {k : SectionId} {start : Word} {ctx : Context}
    (h : ctx.StartsAt k start) : ctx.sectionStart = start := by
  rw [Context.sectionStart_eq, h.current, Option.bind_some, h.locates, Option.getD_some]

/-- Different sections have different start symbols. -/
theorem startName_injective {m n : SectionId} (h : startName m = startName n) : m = n := by
  have hrepr : m.repr = n.repr := by simpa [startName] using h
  rw [Nat.repr_eq_ofList_toDigits, Nat.repr_eq_ofList_toDigits, String.ofList_inj] at hrepr
  rw [← Nat.ofDigitChars_toDigits (b := 10) (n := m) (by decide) (by decide), hrepr,
    Nat.ofDigitChars_toDigits (by decide) (by decide)]

end Context

namespace Emit

theorem closed_grows (N : Nat) :
    Closed N Expr.IsFunctionFree (Keeps fun ctx after => ctx.symbols.Grows after.symbols) :=
  closed_keeps (fun _ => .refl _) .trans (fun _ _ => .refl _) (fun _ _ _ _ => .refl _)
    fun hf hsettle => (Field.settle_grows hf hsettle).1

/-- Items stay in the section that they are in. -/
theorem closed_growsIn :
    Closed 0 Expr.IsFunctionFree (Keeps fun ctx after =>
      ctx.symbols.Grows after.symbols ∧ after.current = ctx.current) :=
  closed_keeps (fun _ => ⟨.refl _, rfl⟩) (fun hab hbc => ⟨hab.1.trans hbc.1, hbc.2.trans hab.2⟩)
    (fun _ _ => ⟨.refl _, rfl⟩) (fun _ _ hid => absurd hid (Nat.not_lt_zero _))
    fun hf hsettle => by
      obtain ⟨hgrows, hsame⟩ := Field.settle_grows hf hsettle
      exact ⟨hgrows, by rw [hsame]⟩

/-- What has no fields lists nothing. -/
theorem closed_silent (N : Nat) :
    Closed N (fun _ => False) (Keeps fun ctx after => after.relocations = ctx.relocations) :=
  closed_keeps (fun _ => rfl) (fun hab hbc => hbc.trans hab) (fun _ _ => rfl)
    (fun _ _ _ _ => rfl) fun hf => hf.elim

/-! ## Runs and the spots that they list -/

/-- However far a step comes, it lists relocations at some of the spots, in their order. Where it
succeeds, the bytes that it hands over are as `B` says of every relocation that it lists. -/
def Covers (spots : List Spot) (B : List UInt8 → Relocation → Prop) {α : Type} (m : Emit α)
    (s : Emission) : Prop :=
  ∃ more : List Relocation,
    (stateAfter m s).context.relocations.toList = s.context.relocations.toList ++ more ∧
    (more.map Relocation.spot).Sublist spots ∧
    ∀ a t, m s = .ok a t → ∃ bytes, Writes m s a t bytes ∧ ∀ r ∈ more, B bytes r

namespace Covers

variable {α β : Type} {m : Emit α} {f : α → Emit β} {s : Emission} {spots rest : List Spot}
  {B C : List UInt8 → Relocation → Prop}

/-- What lists nothing. -/
theorem of_silent (hsame : (stateAfter m s).context.relocations = s.context.relocations)
    (hwrites : ∀ a t, m s = .ok a t → ∃ bytes, Writes m s a t bytes) : Covers spots B m s := by
  refine ⟨[], by rw [hsame, List.append_nil], List.nil_sublist _, fun a t hrun => ?_⟩
  obtain ⟨bytes, hw⟩ := hwrites a t hrun
  exact ⟨bytes, hw, nofun⟩

theorem pure (a : α) (s : Emission) : Covers spots B (Pure.pure a) s :=
  of_silent rfl fun _ _ hrun => by
    cases hrun
    exact ⟨[], .pure _ _⟩

theorem put (run : Run) (s : Emission) : Covers spots B (put run) s :=
  of_silent (by rw [after_put_context]) fun _ _ hrun => ⟨_, put_writes hrun⟩

/-- What starts with a change of the context that leaves the relocations. -/
theorem of_context {m' : Emit α} {g : Context → Context}
    (h : Covers spots B m' { s with context := g s.context })
    (hm : ∀ u : Emission, m u = m' { u with context := g u.context })
    (hg : (g s.context).relocations = s.context.relocations) : Covers spots B m s := by
  obtain ⟨more, hlisted, hspots, hbytes⟩ := h
  have hafter : stateAfter m s = stateAfter m' { s with context := g s.context } := by
    rw [stateAfter, stateAfter, hm]
  refine ⟨more, by rw [hafter, hlisted, hg], hspots, fun a t hrun => ?_⟩
  rw [hm] at hrun
  obtain ⟨bytes, hw, hblank⟩ := hbytes a t hrun
  exact ⟨bytes, hw.of_context hm, hblank⟩

theorem imp (h : Covers spots B m s)
    (himp : ∀ a t bytes, m s = .ok a t → Writes m s a t bytes → ∀ r, B bytes r → C bytes r) :
    Covers spots C m s := by
  obtain ⟨more, hlisted, hspots, hbytes⟩ := h
  refine ⟨more, hlisted, hspots, fun a t hrun => ?_⟩
  obtain ⟨bytes, hw, hblank⟩ := hbytes a t hrun
  exact ⟨bytes, hw, fun r hr => himp a t bytes hrun hw r (hblank r hr)⟩

/-- One step after the other lists at the spots of the one and then at those of the other. -/
theorem bind (hm : Covers spots B m s)
    (hf : ∀ a t bytes, m s = .ok a t → Writes m s a t bytes →
      Covers rest (fun more => C (bytes ++ more)) (f a) t)
    (hleft : ∀ bytes more r, B bytes r → C (bytes ++ more) r) :
    Covers (spots ++ rest) C (m >>= f) s := by
  obtain ⟨more, hlisted, hspots, hbytes⟩ := hm
  cases hrun : m s with
  | error e t =>
    -- the second step is not come to, and its spots stay without relocations
    rw [stateAfter_of_error hrun] at hlisted
    refine ⟨more, by rw [stateAfter_bind_of_error hrun, hlisted], hspots.trans
      (List.sublist_append_left _ _), fun b u hboth => ?_⟩
    rw [bind_apply, hrun] at hboth
    cases hboth
  | ok a t =>
    obtain ⟨first, hfirst, hblank⟩ := hbytes a t hrun
    obtain ⟨later, hlater, hrest, hbytes'⟩ := hf a t first hrun hfirst
    rw [stateAfter_of_ok hrun] at hlisted
    refine ⟨more ++ later, ?_, ?_, fun b u hboth => ?_⟩
    · rw [stateAfter_bind_of_ok hrun, hlater, hlisted, List.append_assoc]
    · rw [List.map_append]
      exact hspots.append hrest
    · rw [bind_apply, hrun] at hboth
      obtain ⟨second, hsecond, hblank'⟩ := hbytes' b u hboth
      refine ⟨first ++ second, hfirst.bind hsecond, fun r hr => ?_⟩
      rcases List.mem_append.1 hr with hr | hr
      · exact hleft first second r (hblank r hr)
      · exact hblank' r hr

end Covers

end Emit

open Emit

/-! ## Items -/

/-- There are `count` zeros among the bytes from `place` on. -/
def ZerosAt (bytes : List UInt8) (place count : Nat) : Prop :=
  ∀ j < count, bytes[place + j]? = some 0

namespace ZerosAt

variable {bytes : List UInt8} {place count : Nat}

theorem append_right (h : ZerosAt bytes place count) (more : List UInt8) :
    ZerosAt (bytes ++ more) place count := by
  intro j hj
  rw [List.getElem?_append_left (List.getElem?_eq_some_iff.1 (h j hj)).1]
  exact h j hj

theorem append_left (h : ZerosAt bytes place count) (first : List UInt8) :
    ZerosAt (first ++ bytes) (first.length + place) count := by
  intro j hj
  rw [Nat.add_assoc, List.getElem?_append_right (Nat.le_add_right _ _), Nat.add_sub_cancel_left]
  exact h j hj

end ZerosAt

/-- A relocation in section `k`, of a field with nothing but zeros among bytes from `origin` on. -/
def Relocation.IsBlank (k : SectionId) (origin : Nat) (bytes : List UInt8) (r : Relocation) :
    Prop :=
  r.home = k ∧ ∃ gap, r.offset = .ofNat (origin + gap) ∧ ZerosAt bytes gap r.size.bytes

namespace Relocation.IsBlank

variable {k : SectionId} {origin : Nat} {bytes more : List UInt8} {r : Relocation}

theorem append_right (h : r.IsBlank k origin bytes) (more : List UInt8) :
    r.IsBlank k origin (bytes ++ more) := by
  obtain ⟨hhome, gap, hoffset, hzeros⟩ := h
  exact ⟨hhome, gap, hoffset, hzeros.append_right more⟩

theorem append_left (h : r.IsBlank k (origin + bytes.length) more) :
    r.IsBlank k origin (bytes ++ more) := by
  obtain ⟨hhome, gap, hoffset, hzeros⟩ := h
  exact ⟨hhome, bytes.length + gap, by rw [hoffset, Nat.add_assoc], hzeros.append_left bytes⟩

/-- Among less than `2 ^ 128` bytes an offset counts those before it. -/
theorem zerosAt (h : r.IsBlank k 0 bytes) (hshort : bytes.length < 2 ^ 128) :
    ZerosAt bytes r.offset.toNat r.size.bytes := by
  obtain ⟨-, gap, hoffset, hzeros⟩ := h
  intro j hj
  have hlt := (List.getElem?_eq_some_iff.1 (hzeros j hj)).1
  have hgap : r.offset.toNat = gap := by
    rw [hoffset, Nat.zero_add, Word.ofNat, BitVec.toNat_ofNat]
    exact Nat.mod_eq_of_lt (by omega)
  rw [hgap]
  exact hzeros j hj

end Relocation.IsBlank

theorem Word.leBytes_zero (size : DataSize) :
    Word.leBytes 0 size = List.replicate size.bytes 0 := by
  have hbyte : ∀ i, Word.byte 0 i = 0 := fun i => by simp [byte]
  rw [leBytes, funext hbyte, List.map_const']
  simp

section Fields

variable {k : SectionId} {start : Word}

/-- A field that has to wait is listed where it stands, and written as zero. -/
theorem Field.write_covers {f : Field} (hf : f.expr.IsFunctionFree) {s : Emission}
    (hs : s.context.StartsAt k start) (origin : Nat) (stop : Word)
    (wrap : EvalError → AssemblyError) :
    Covers [⟨k, .ofNat origin, f.size⟩] (Relocation.IsBlank k origin)
      (f.write (start + .ofNat origin) stop wrap) s := by
  have hafter := after_write_context f (start + .ofNat origin) stop wrap s
  cases hsettle : f.settle (start + .ofNat origin) stop s.context with
  | error e after =>
    rw [hsettle] at hafter
    refine .of_silent (by rw [hafter]) fun n t hrun => ?_
    obtain ⟨-, value, -, hw⟩ := write_writes hrun
    exact ⟨_, hw⟩
  | ok number after =>
    rw [hsettle] at hafter
    obtain ⟨value, resolved, mid, heval, hresolve, hsettled⟩ := settle_eq_ok hsettle
    cases resolved with
    | value w =>
      cases hsettled
      refine .of_silent (by rw [hafter, Context.eq_of_resolve_value hresolve]) fun n t hrun => ?_
      obtain ⟨-, value, -, hw⟩ := write_writes hrun
      exact ⟨_, hw⟩
    | relocate id addend =>
      cases hsettled
      obtain ⟨hgrows, hmid⟩ :=
        Context.resolve_grows (fun _ => Expr.idOf?_eq_none_of_eval hf heval) hresolve
      have hstarts : mid.StartsAt k start := hs.grow ⟨hgrows, by rw [hmid]⟩
      -- the import that is registered in between leaves the start of the section
      have hspot : (f.relocation mid (start + .ofNat origin) stop id addend).spot =
          ⟨k, .ofNat origin, f.size⟩ := by
        have hoffset : start + .ofNat origin - mid.sectionStart = Word.ofNat origin := by
          rw [hstarts.sectionStart_eq, BitVec.add_comm, BitVec.add_sub_cancel]
        simp only [Relocation.spot, relocation, hstarts.current, hoffset, Option.getD_some]
      obtain ⟨hhome, hoffset, hsize⟩ := Spot.mk.inj hspot
      refine ⟨[f.relocation mid (start + .ofNat origin) stop id addend], ?_, ?_, fun n t hrun => ?_⟩
      · rw [hafter]
        simp [(Context.resolve_relocations hresolve).2.2]
      · have hmap : [f.relocation mid (start + .ofNat origin) stop id addend].map Relocation.spot =
            [⟨k, .ofNat origin, f.size⟩] := by rw [List.map_singleton, hspot]
        exact hmap ▸ .refl _
      · obtain ⟨-, number, hnumber, hw⟩ := write_writes hrun
        rw [hsettle, EStateM.Result.ok.injEq] at hnumber
        obtain ⟨rfl, -⟩ := hnumber
        refine ⟨_, hw, fun r hr => ?_⟩
        obtain rfl := List.mem_singleton.1 hr
        refine ⟨hhome, 0, hoffset, fun j hj => ?_⟩
        rw [hsize] at hj
        rw [Word.leBytes_zero, Nat.zero_add, List.getElem?_replicate_of_lt hj]

/-- Fields list their spots one after the other, and leave zeros there. -/
theorem Encoded.writeFields_covers (e : Encoded) {fields : List Field}
    (hfields : ∀ f ∈ fields, f.expr.IsFunctionFree) {s : Emission}
    (hs : s.context.StartsAt k start) (origin : Nat) (stop : Word) (written : Nat) :
    Covers (fieldSpots k (origin + written) fields) (Relocation.IsBlank k (origin + written))
      (e.writeFields (start + .ofNat origin) stop written fields) s := by
  induction fields generalizing written s with
  | nil => exact .pure written s
  | cons f fields ih =>
    have haddress : start + .ofNat origin + .ofNat written = start + .ofNat (origin + written) := by
      rw [BitVec.add_assoc, Word.ofNat_add]
    have hf := hfields f List.mem_cons_self
    rw [writeFields, haddress]
    refine (Field.write_covers hf hs (origin + written) stop _).bind
      (fun count t bytes hrun hw => ?_) fun bytes more r hr => hr.append_right more
    obtain ⟨rfl, value, -, hw'⟩ := Field.write_writes hrun
    have hlength : bytes.length = f.size.bytes := by rw [hw.unique hw', Word.length_leBytes]
    have ht := hs.grow ((closed_growsIn.write f _ stop _ hf).of_ok hrun)
    have hrest := ih (fun g hg => hfields g (List.mem_cons_of_mem f hg)) ht (written + f.size.bytes)
    rw [← Nat.add_assoc] at hrest
    refine hrest.imp fun _ _ more _ _ r hr => ?_
    rw [← hlength] at hr
    exact hr.append_left

namespace Item

/-- The fields of an item are listed behind its other bytes. -/
theorem write_covers {item : Item} (hitem : ∀ f ∈ item.fields, f.expr.IsFunctionFree) {s : Emission}
    (hs : s.context.StartsAt k start) (origin : Nat) (stop : Word) :
    Covers (fieldSpots k (origin + item.fixedBytes.length) item.fields)
      (Relocation.IsBlank k origin) (item.write (start + .ofNat origin) stop) s := by
  cases item with
  | raw run => exact .put run s
  | reserve count => exact .put _ s
  | data field => exact Field.write_covers (hitem field List.mem_cons_self) hs origin stop _
  | instruction encoded =>
    have hput : Covers [] (Relocation.IsBlank k origin) (put (.literal encoded.bytes)) s := .put _ s
    refine hput.bind (fun count t bytes hrun hw => ?_) fun bytes more r hr => hr.append_right more
    obtain ⟨-, hcontext, rfl⟩ := put_eq_ok.1 hrun
    have hbytes : bytes = encoded.bytes := hw.unique (put_writes hrun)
    have ht : t.context.StartsAt k start := hcontext ▸ hs
    refine (encoded.writeFields_covers hitem ht origin stop _).imp fun _ _ more _ _ r hr => ?_
    rw [hbytes]
    exact hr.append_left

/-- An item lists the spots of its fields, behind its fixed bytes. -/
theorem emit_covers {item : Item} (hitem : ∀ f ∈ item.fields, f.expr.IsFunctionFree) {s : Emission}
    (hs : s.context.StartsAt k start) {origin : Nat}
    (haddress : s.context.address = start + .ofNat origin) :
    Covers (fieldSpots k (origin + item.fixedBytes.length) item.fields)
      (Relocation.IsBlank k origin) item.emit s := by
  obtain ⟨more, hlisted, hspots, hbytes⟩ :=
    write_covers hitem hs origin (s.context.address + .ofNat item.length)
  rw [← haddress] at hlisted hbytes
  have hsame : (stateAfter item.emit s).context.relocations =
      (stateAfter (item.write s.context.address (s.context.address + .ofNat item.length))
        s).context.relocations := by
    unfold stateAfter
    rw [emit_apply]
    cases item.write s.context.address (s.context.address + .ofNat item.length) s <;> rfl
  refine ⟨more, by rw [hsame, hlisted], hspots, fun n t hrun => ?_⟩
  obtain ⟨u, hwrite, rfl⟩ := emit_eq_ok.1 hrun
  obtain ⟨bytes, hw, hblank⟩ := hbytes n u hwrite
  exact ⟨bytes, writes_emit hw, hblank⟩

/-- The fields of items are listed one item after the other. -/
theorem emitFrom_covers {items : List Item}
    (hitems : ∀ item ∈ items, ∀ f ∈ item.fields, f.expr.IsFunctionFree) {s : Emission}
    (hs : s.context.StartsAt k start) {origin : Nat}
    (haddress : s.context.address = start + .ofNat origin) (count : Nat) :
    Covers (itemSpots k origin items) (Relocation.IsBlank k origin) (emitFrom count items) s := by
  induction items generalizing origin count s with
  | nil => exact .pure count s
  | cons item items ih =>
    have hitem := hitems item List.mem_cons_self
    rw [emitFrom_cons]
    refine (emit_covers hitem hs haddress).bind (fun n t bytes hrun hw => ?_)
      fun bytes more r hr => hr.append_right more
    obtain ⟨-, hmoved, own, hown, hw'⟩ := emit_writes hrun
    have hlength : bytes.length = item.length := by rw [hw.unique hw', hown]
    have ht := hs.grow ((closed_growsIn.itemEmit hitem).of_ok hrun)
    have hbehind : t.context.address = start + .ofNat (origin + item.length) := by
      rw [hmoved, haddress, BitVec.add_assoc, Word.ofNat_add]
    refine (ih (fun x hx => hitems x (List.mem_cons_of_mem item hx)) ht hbehind (count + n)).imp
      fun _ _ more _ _ r hr => ?_
    rw [← hlength] at hr
    exact hr.append_left

end Item

end Fields

/-! ## Sections -/

namespace Section

/-- A placed section of function-free expressions that is short enough to count offsets in. -/
structure IsPlacedAs (s : Section) (p : PlacedSection) : Prop where
  filled : p.IsFilled
  free : ∀ item ∈ p.items, ∀ f ∈ item.fields, f.expr.IsFunctionFree
  size : ∀ item ∈ p.items, ∀ f ∈ item.fields, 0 < f.size.bytes
  /-- Without an image there are no fields. -/
  bss : s.kind = .bss → ∀ item ∈ p.items, item.fields = []
  short : totalLength p.items < 2 ^ 127

variable {s : Section} {p : PlacedSection} {k : SectionId} {cursor : Option Word} {st : Emission}

/-- A gap lists nothing. -/
theorem emitGap_covers (cursor : Option Word) (start : Word) (st : Emission) :
    Covers [] (fun _ _ => False) (emitGap cursor start) st := by
  unfold emitGap
  split
  · exact .pure _ _
  · dsimp only
    split
    · exact .pure _ _
    · exact .put _ _

/-- A section lists its fields behind the gap before it. -/
theorem emit_covers (hp : s.IsPlacedAs p) (hst : st.context.Locates k p.start) :
    Covers (itemSpots k 0 p.items)
      (fun bytes r => r.home = k ∧
        ZerosAt bytes (gapBefore cursor p.start + r.offset.toNat) r.size.bytes)
      (s.emit k p cursor) st := by
  by_cases hs : s.kind = .bss
  · have hfields : ∀ item ∈ p.items, ∀ f ∈ item.fields, False := fun item hitem f hf => by
      rw [hp.bss hs item hitem] at hf
      cases hf
    exact .of_silent ((closed_silent (k + 1)).sectionEmit (Nat.lt_succ_self k) hfields cursor st)
      fun n t hrun => ⟨[], (emit_writes_bss hs hp.filled hrun).2⟩
  · refine .of_context (g := (·.enterSection k p.start)) ?_ (emit_of_ne_bss hs hp.filled k cursor)
      rfl
    refine (emitGap_covers cursor p.start _).bind (fun gap t bytes hrun hw => ?_)
      fun _ _ _ hnone => hnone.elim
    obtain ⟨rfl, hcontext, hw'⟩ := emitGap_writes hrun
    have hlength : bytes.length = gapBefore cursor p.start := by
      rw [hw.unique hw', List.length_replicate]
    have ht : t.context.StartsAt k p.start := by
      rw [hcontext]
      exact ⟨rfl, hst⟩
    have haddress : t.context.address = p.start + .ofNat 0 := by
      rw [hcontext]
      simp [Context.enterSection, Word.ofNat]
    refine (Item.emitFrom_covers hp.free ht haddress _).imp fun _ _ own hitems hown r hr => ?_
    obtain ⟨-, -, own', hlen, hown'⟩ := Item.emitFrom_writes hitems
    have hshort : own.length < 2 ^ 128 := by
      have htotal := hp.short
      rw [hown.unique hown', hlen]
      omega
    refine ⟨hr.1, ?_⟩
    have hzeros := (hr.zerosAt hshort).append_left bytes
    rwa [hlength] at hzeros

end Section

namespace ObjectFile

/-- Sections list their fields one section after the other. -/
theorem emitSections_covers {l : List (Section × PlacedSection)}
    (hl : ∀ sp ∈ l, sp.1.IsPlacedAs sp.2) {id : Nat} {st : Emission}
    (hst : ∀ n sp, l[n]? = some sp → st.context.Locates (id + n) sp.2.start)
    (cursor : Option Word) (written : Nat) :
    Covers (sectionSpots id (l.map Prod.snd))
      (fun image r => ∃ n, r.home = id + n ∧
        ZerosAt image (imageStart cursor l n + r.offset.toNat) r.size.bytes)
      (emitSections id cursor written l) st := by
  induction l generalizing id st cursor written with
  | nil => exact .pure written st
  | cons sp l ih =>
    obtain ⟨s, p⟩ := sp
    have hp : s.IsPlacedAs p := hl (s, p) List.mem_cons_self
    rw [emitSections_cons]
    refine (Section.emit_covers hp (hst 0 _ rfl)).bind (fun count t bytes hrun hw => ?_)
      fun bytes more r hr => ⟨0, hr.1, hr.2.append_right more⟩
    have hgrows := ((closed_grows (id + 1)).sectionEmit (Nat.lt_succ_self id) hp.free cursor).of_ok
      hrun
    have ht : ∀ n sp, l[n]? = some sp → t.context.Locates (id + 1 + n) sp.2.start := by
      intro n sp hn
      rw [Nat.add_assoc, Nat.add_comm 1 n]
      exact (hst (n + 1) sp hn).grow hgrows
    refine (ih (fun x hx => hl x (List.mem_cons_of_mem _ hx)) ht _ _).imp
      fun _ _ more _ _ r hr => ?_
    obtain ⟨n, hhome, hzeros⟩ := hr
    refine ⟨n + 1, by rw [hhome, Nat.add_assoc, Nat.add_comm 1 n], ?_⟩
    obtain ⟨hcount, own, hown, hw'⟩ := Section.emit_writes_imageLength hp.filled hrun
    rw [imageStart, ← hcount, ← hown, ← hw.unique hw', Nat.add_assoc]
    exact hzeros.append_left bytes

end ObjectFile

/-! ## What the first pass leaves -/

namespace Section

variable {s : Section} {id : SectionId} {stop : Word} {ctx after : Context} {p : PlacedSection}

/-- The items of a section without an image have no fields. -/
theorem fields_eq_nil_of_bss (h : s.construct id stop ctx = .ok p after) (hs : s.kind = .bss) :
    ∀ item ∈ p.items, item.fields = [] := by
  intro item hitem
  have hfill := (construct_eq_ok.1 h).2.2.2 hs item hitem
  cases item with
  | raw | reserve => rfl
  | data | instruction => cases hfill

end Section

theorem PlacedSection.IsFilled.toInt_sub {p : PlacedSection} (h : p.IsFilled)
    (hshort : totalLength p.items < 2 ^ 127) : (p.stop - p.start).toInt = totalLength p.items := by
  rw [h, advance_eq, BitVec.add_comm, BitVec.add_sub_cancel]
  exact Word.toInt_ofNat (by omega)

namespace ObjectFile

variable {obj built : ObjectFile}

theorem construct_relocations (hfresh : obj.stage = .fresh) :
    obj.construct.2.context.relocations = #[] := by
  rw [construct_of_fresh hfresh]
  exact (constructSections_frames _ _ _ _ _).relocations

/-- The start symbol of a section is that of its start when all sections are laid out. -/
theorem find?_startName_of_construct (h : obj.construct = (.ok (), built)) {k : SectionId}
    {s : Section} {p : PlacedSection} (hs : built.sections[k]? = some s)
    (hp : built.placed[k]? = some p) :
    ∃ file, built.context.symbols.find? (Context.startName k) =
      some (Context.startSymbol file k p.start) := by
  obtain ⟨stop, mid, next, rest, hsection, hrest⟩ := exists_construct_of_placed h hs hp
  have hopened : (mid.openSection k p.start).2.symbols.find? (Context.startName k) =
      some (Context.startSymbol mid.file k p.start) :=
    SymbolTable.find?_insert_self _ (Context.startSymbol mid.file k p.start)
  have hnext := (Section.construct_extends hsection).find? hopened
  -- the sections behind have other names
  refine ⟨mid.file, constructSections_find? hrest (fun n hle _ hname => ?_) hnext⟩
  obtain rfl := Context.startName_injective hname
  exact Nat.lt_irrefl _ hle

theorem locates_of_construct (h : obj.construct = (.ok (), built)) {k : SectionId} {s : Section}
    {p : PlacedSection} (hs : built.sections[k]? = some s) (hp : built.placed[k]? = some p) :
    built.context.Locates k p.start := by
  obtain ⟨file, hstart⟩ := find?_startName_of_construct h hs hp
  rw [Context.Locates, hstart]
  rfl

theorem isPlacedAs_of_construct (h : obj.construct = (.ok (), built))
    (hfree : ∀ s ∈ obj.sections, s.IsFunctionFree)
    (hshort : ∀ p ∈ built.placed, totalLength p.items < 2 ^ 127) {k : SectionId} {s : Section}
    {p : PlacedSection} (hs : built.sections[k]? = some s) (hp : built.placed[k]? = some p) :
    s.IsPlacedAs p := by
  obtain ⟨stop, mid, next, rest, hsection, -⟩ := exists_construct_of_placed h hs hp
  have hmem := List.mem_of_getElem? hp
  exact ⟨Section.construct_isFilled hsection, construct_isFunctionFree h hfree p hmem,
    fun item hitem f hf => (Section.construct_isFrom hsection item hitem f hf).size,
    Section.fields_eq_nil_of_bss hsection, hshort p hmem⟩

/-! ## The table after the second pass -/

theorem emit_context (h : built.IsLaidOut) (sink : Sink) :
    (built.emit sink).2.1.context = (stateAfter built.run ⟨built.context.reset, sink⟩).context := by
  rw [emit_eq_after h.stage]

section Table

variable (h : obj.construct = (.ok (), built)) (hfree : ∀ s ∈ obj.sections, s.IsFunctionFree)
  (hshort : ∀ p ∈ built.placed, totalLength p.items < 2 ^ 127)
include h hfree hshort

/-- The second pass lists fields in the order in which the first has placed them. -/
theorem run_covers (sink : Sink) :
    Covers (sectionSpots 0 built.placed)
      (fun image r => ZerosAt image
        (imageStart none (built.sections.zip built.placed) r.home + r.offset.toNat) r.size.bytes)
      built.run ⟨built.context.reset, sink⟩ := by
  have hlaid := IsLaidOut.of_construct h
  have hzip {n : Nat} {sp : Section × PlacedSection}
      (hn : (built.sections.zip built.placed)[n]? = some sp) :
      built.sections[n]? = some sp.1 ∧ built.placed[n]? = some sp.2 :=
    List.getElem?_zip_eq_some.1 hn
  have hplaced : ∀ sp ∈ built.sections.zip built.placed, sp.1.IsPlacedAs sp.2 := by
    intro sp hsp
    obtain ⟨n, hn⟩ := List.mem_iff_getElem?.1 hsp
    exact isPlacedAs_of_construct h hfree hshort (hzip hn).1 (hzip hn).2
  have hstarts : ∀ n sp, (built.sections.zip built.placed)[n]? = some sp →
      built.context.reset.Locates (0 + n) sp.2.start := by
    intro n sp hn
    rw [Nat.zero_add]
    exact locates_of_construct h (hzip hn).1 (hzip hn).2
  have hcovers : Covers _ _ built.run ⟨built.context.reset, sink⟩ :=
    emitSections_covers hplaced hstarts none 0
  rw [List.map_snd_zip (Nat.le_of_eq hlaid.length)] at hcovers
  refine hcovers.imp fun _ _ _ _ _ r hr => ?_
  obtain ⟨n, hhome, hzeros⟩ := hr
  rwa [hhome, Nat.zero_add]

/-- The spots stand one behind the other, in sections of the image. -/
theorem sectionSpots_of_construct :
    (sectionSpots 0 built.placed).Pairwise Precedes ∧
      ∀ x ∈ sectionSpots 0 built.placed, ∃ s p, built.sections[x.home]? = some s ∧ s.kind ≠ .bss ∧
        built.placed[x.home]? = some p ∧ 0 ≤ x.offset.toInt ∧
        x.offset.toInt + x.size.bytes ≤ (p.stop - p.start).toInt := by
  have hlaid := IsLaidOut.of_construct h
  have hplaced {k : Nat} {p : PlacedSection} (hp : built.placed[k]? = some p) :
      ∃ s, built.sections[k]? = some s ∧ s.IsPlacedAs p := by
    have hlt : k < built.sections.length := hlaid.length ▸ (List.getElem?_eq_some_iff.1 hp).1
    exact ⟨_, List.getElem?_eq_getElem hlt,
      isPlacedAs_of_construct h hfree hshort (List.getElem?_eq_getElem hlt) hp⟩
  have hsize : ∀ p ∈ built.placed, ∀ item ∈ p.items, ∀ f ∈ item.fields, 0 < f.size.bytes := by
    intro p hp
    obtain ⟨k, hk⟩ := List.mem_iff_getElem?.1 hp
    obtain ⟨s, -, hs⟩ := hplaced hk
    exact hs.size
  obtain ⟨hsorted, hbounds⟩ := sectionSpots_inOrder hsize hshort 0
  refine ⟨hsorted, fun x hx => ?_⟩
  obtain ⟨n, p, hhome, hp, hmem, hstart, hstop⟩ := hbounds x hx
  rw [Nat.zero_add] at hhome
  rw [← hhome] at hp
  obtain ⟨s, hs, hsp⟩ := hplaced hp
  refine ⟨s, p, hs, fun hbss => ?_, hp, hstart, ?_⟩
  · rw [itemSpots_eq_nil (hsp.bss hbss)] at hmem
    cases hmem
  · rwa [hsp.filled.toInt_sub hsp.short]

end Table

/-- The table after both passes, whether they come through or not, for a program of function-free
expressions in sections of less than `2 ^ 127` bytes. Every relocation waits for an import of the
symbol table, and its field lies within a section of the image. The fields are listed from section
to section and from offset to offset, none of them overlaps the next, and in an image that comes
through there are zeros in their places. -/
theorem relocation_table {final : ObjectFile} {result : Except AssemblyError Unit}
    {answer : Except AssemblyError Nat} {sink out : Sink} (hfresh : obj.stage = .fresh)
    (hfree : ∀ s ∈ obj.sections, s.IsFunctionFree) (hbuilt : obj.construct = (result, built))
    (hshort : ∀ p ∈ built.placed, totalLength p.items < 2 ^ 127)
    (hemit : built.emit sink = (answer, final, out)) :
    (∀ r ∈ final.context.relocations,
      (∃ x, final.context.symbols.get? r.target = some x ∧ x.isImport) ∧
      ∃ s p, built.sections[r.home]? = some s ∧ s.kind ≠ .bss ∧ built.placed[r.home]? = some p ∧
        0 ≤ r.offset.toInt ∧ r.offset.toInt + r.size.bytes ≤ (p.stop - p.start).toInt) ∧
    final.context.relocations.toList.Pairwise (fun a b => a.spot.Precedes b.spot) ∧
    ∀ n, answer = .ok n → ∃ image : List UInt8, out = sink.push image ∧
      built.emit (.new none) = (.ok n, final, .buffer none image.toArray) ∧ image.length = n ∧
      ∀ r ∈ final.context.relocations, ZerosAt image
        (imageStart none (built.sections.zip built.placed) r.home + r.offset.toNat)
        r.size.bytes := by
  cases result with
  | error e =>
    -- there is no second pass, and nothing is listed
    have hagain := stage_construct_of_error hfresh (congrArg Prod.fst hbuilt)
    rw [hbuilt] at hagain
    have hnot : built.stage ≠ .constructed := by simp [show built.stage = .fresh from hagain]
    have hempty : built.context.relocations = #[] := by
      have hnone := construct_relocations hfresh
      rwa [hbuilt] at hnone
    rw [emit_of_ne_constructed hnot] at hemit
    cases hemit
    rw [hempty]
    exact ⟨fun r hr => absurd hr (by simp), .nil, nofun⟩
  | ok u =>
    have hlaid := IsLaidOut.of_construct hbuilt
    have hcontext : final.context = (stateAfter built.run ⟨built.context.reset, sink⟩).context := by
      rw [← emit_context hlaid, hemit]
    have haccounted : final.context.IsAccounted := by
      rw [hcontext]
      exact of_closed built (closed_isAccounted _) (fun _ _ _ _ _ _ => trivial) _
        ((isAccounted_of_construct hbuilt).of_tables rfl rfl)
    obtain ⟨more, hlisted, hspots, hbytes⟩ := run_covers hbuilt hfree hshort sink
    obtain ⟨hsorted, hbounds⟩ := sectionSpots_of_construct hbuilt hfree hshort
    have htable : final.context.relocations.toList = more := by
      have hempty : built.context.reset.relocations = #[] :=
        (IsBuilt.of_construct hbuilt).relocations
      rw [hcontext, hlisted, hempty]
      rfl
    have hmem {r : Relocation} : r ∈ final.context.relocations ↔ r ∈ more := by
      rw [← Array.mem_toList_iff, htable]
    refine ⟨fun r hr => ⟨haccounted.target r hr, ?_⟩, ?_, ?_⟩
    · exact hbounds r.spot (hspots.mem (List.mem_map_of_mem (hmem.1 hr)))
    · rw [htable]
      exact List.pairwise_map.1 (hsorted.sublist hspots)
    · rintro n rfl
      obtain ⟨t, hrun, hcheck, rfl, rfl⟩ := (emit_eq_ok hlaid).1 hemit
      obtain ⟨image, hw, hzeros⟩ := hbytes n t hrun
      obtain ⟨bytes, hcount, hw'⟩ := emitSections_writes hlaid.filled_of_mem_zip hrun
      refine ⟨image, hw.sink, ?_, ?_, fun r hr => hzeros r (hmem.1 hr)⟩
      · exact (emit_eq_ok hlaid).2 ⟨_, hw.replay #[], hcheck, rfl, by simp⟩
      · rw [hw.unique hw', hcount, Nat.zero_add]

/-- Imports in a displacement and in the immediate behind it, and in data after bare space. -/
def scatteredImports : ObjectFile :=
  let text := { Section.new "text" .text with contents :=
    [.instruction ⟨"mov", [.memory { Address.new .bit32 with
      base := some .ebx, displacement := some (.reference "table") }, .imm (.reference "puts")]⟩] }
  let bss := { Section.new "bss" .bss with contents := [.data (.reserve .bit32 2)] }
  let data := { Section.new "data" .data with alignment := 16, contents :=
    [.data (.values .bit16 [.constant 1, .reference "puts"])] }
  (((ObjectFile.new .bit32 .relocatable).addSection text).addSection bss).addSection data

/-- The imports of the instruction are listed before that of the data, which follows the space in
the image. -/
theorem relocation_table_scatteredImports :
    ∃ built final out, scatteredImports.construct = (.ok (), built) ∧
      built.emit (.new none) = (.ok 36, final, out) ∧
      final.context.relocations.toList.map Relocation.spot =
        [⟨0, 2, .bit32⟩, ⟨0, 6, .bit32⟩, ⟨2, 2, .bit16⟩] ∧
      final.context.relocations.toList.Pairwise (fun a b => a.spot.Precedes b.spot) ∧
      ∃ image : List UInt8, out = .buffer none image.toArray ∧ image.length = 36 ∧
        image[34]? = some 0 := by
  have hfree : ∀ s ∈ scatteredImports.sections, s.IsFunctionFree := by decide +kernel
  have hbuilt : scatteredImports.construct = (.ok (), scatteredImports.construct.2) :=
    Prod.ext (eq_ok_of_toOption (by decide +kernel)) rfl
  have hshort : ∀ p ∈ scatteredImports.construct.2.placed, totalLength p.items < 2 ^ 127 := by
    decide +kernel
  have hemit : (scatteredImports.construct.2.emit (.new none)).1 = .ok 36 :=
    eq_ok_of_toOption (by decide +kernel)
  have hlisted : (scatteredImports.construct.2.emit (.new none)).2.1.context.relocations =
      #[⟨3, 0, 2, 0, .absolute, .bit32⟩, ⟨4, 0, 6, 0, .absolute, .bit32⟩,
        ⟨4, 2, 2, 0, .absolute, .bit16⟩] := by decide +kernel
  have hstart : imageStart none (scatteredImports.construct.2.sections.zip
      scatteredImports.construct.2.placed) 2 = 32 := by decide +kernel
  obtain ⟨-, hsorted, himage⟩ := relocation_table rfl hfree hbuilt hshort (Prod.ext hemit rfl)
  obtain ⟨image, hout, -, hlength, hzeros⟩ := himage 36 rfl
  refine ⟨_, _, _, hbuilt, Prod.ext hemit rfl, ?_, hsorted, image, ?_, hlength, ?_⟩
  · rw [hlisted]
    rfl
  · simpa [Sink.new, Sink.push] using hout
  · rw [hlisted] at hzeros
    have hdata := hzeros ⟨4, 2, 2, 0, .absolute, .bit16⟩ (by simp) 0 (by decide)
    rw [hstart] at hdata
    exact hdata

end ObjectFile

end Assembler
