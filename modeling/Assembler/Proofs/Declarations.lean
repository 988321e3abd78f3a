import Assembler.Proofs.TwoPass

/-!
# Declared names

Labels, definitions and externals name something, and so does the start of every section. A leaf
that declares a name of the table stops the first pass. The start of a section takes its name over
without asking.

Main statement: `ObjectFile.declarations_kept`. Two facts carry it: a run forgets no name, and what
it has defined up to a section is at home in none of the sections after it.
-/

namespace Assembler

namespace Statement

/-- A leaf that declares a name of the table is refused. -/
theorem place_duplicate {leaf : Statement} {ctx : Context} {identifier : String}
    (hdeclares : leaf.declares? = some identifier) (hne : identifier ≠ "")
    (hknown : (ctx.symbols.find? identifier).isSome) :
    leaf.place ctx = .error (.duplicateSymbol identifier) ctx := by
  have hcheck : ctx.checkNew identifier = .error (.duplicateSymbol identifier) := by
    simp [Context.checkNew, hknown, hne]
  cases leaf with
  | label =>
    cases hdeclares
    rw [place_label_apply, hcheck]
  | define =>
    cases hdeclares
    rw [place_define_apply, hcheck]
  | external =>
    cases hdeclares
    rw [place_external_apply, hcheck]
  | align | data | comment | group | instruction => cases hdeclares

/-- A walk stops at a leaf that cannot be placed. -/
theorem constructAll_error {l : List Statement} {ctx mid : Context} {made : List Item} {j : Nat}
    (h : constructAll (l.take j) ctx = .ok made mid) {leaf : Statement} (hj : l[j]? = some leaf)
    (hleaf : leaf.IsLeaf) {e : AssemblyError} (he : leaf.place mid = .error e mid) :
    constructAll l ctx = .error e mid := by
  have hfails : construct leaf mid = .error e mid := by
    rw [construct_of_isLeaf hleaf]
    exact constructLeaf_eq_error.2 ⟨he, rfl⟩
  rw [eq_take_append_cons_drop hj, constructAll_append, bind_eq_error]
  refine .inr ⟨made, mid, h, ?_⟩
  rw [bind_eq_error, constructAll, bind_eq_error]
  exact .inl (.inl hfails)

end Statement

/-! ## A run forgets no name -/

namespace Context

/-- The table holds something under the identifier. -/
def Knows (ctx : Context) (identifier : String) : Prop := (ctx.symbols.find? identifier).isSome

variable {ctx after : Context} {identifier : String}

theorem Extends.knows (h : ctx.Extends after) (hknows : ctx.Knows identifier) :
    after.Knows identifier := by
  obtain ⟨s, hs⟩ := Option.isSome_iff_exists.1 hknows
  rw [Knows, h.find? hs]
  rfl

theorem Knows.isSome_idOf? (h : ctx.Knows identifier) : (ctx.symbols.idOf? identifier).isSome := by
  cases hid : ctx.symbols.idOf? identifier with
  | none =>
    rw [Knows, SymbolTable.find?_eq_none_iff.2 hid] at h
    cases h
  | some id => rfl

theorem knows_withSymbol (s : Symbol) : (ctx.withSymbol s).Knows s.identifier := by
  rw [Knows, withSymbol, SymbolTable.find?_insert_self]
  rfl

theorem Knows.withSymbol (h : ctx.Knows identifier) (s : Symbol) :
    (ctx.withSymbol s).Knows identifier := by
  by_cases hname : identifier = s.identifier
  · rw [hname]
    exact knows_withSymbol s
  · rw [Knows, Context.withSymbol, SymbolTable.find?_insert_ne hname]
    exact h

/-- The symbol of the start of a section. -/
def startSymbol (file : Option FileId) (id : SectionId) (start : Word) : Symbol :=
  { Symbol.declare (startName id) .internal with value := start, home := some id, file := file }

theorem knows_openSection (ctx : Context) (id : SectionId) (start : Word) :
    (ctx.openSection id start).2.Knows (startName id) :=
  knows_withSymbol (startSymbol ctx.file id start)

theorem Knows.openSection (h : ctx.Knows identifier) (id : SectionId) (start : Word) :
    (ctx.openSection id start).2.Knows identifier := by
  have hentered : (ctx.enterSection id start).Knows identifier := h
  exact hentered.withSymbol _

theorem startName_ne_empty (id : SectionId) : startName id ≠ "" := by
  simp [startName]

end Context

open Context

namespace Statement

/-- After a walk the table holds what its leaves declare. -/
theorem constructAll_knows {l : List Statement} (hl : ∀ leaf ∈ l, leaf.IsLeaf) {ctx after : Context}
    {items : List Item} (h : constructAll l ctx = .ok items after) {leaf : Statement}
    (hleaf : leaf ∈ l) {identifier : String} (hdeclares : leaf.declares? = some identifier) :
    identifier ≠ "" ∧ after.Knows identifier := by
  obtain ⟨j, hj⟩ := List.mem_iff_getElem?.1 hleaf
  obtain ⟨made, mid, own, placed, rest, -, hplace, hrest, -⟩ := constructAll_split hl h hj
  obtain ⟨-, hextends⟩ :=
    constructAll_advance (fun x hx => hl x (List.mem_of_mem_drop hx)) hrest
  obtain ⟨hnone, -⟩ | ⟨name, s, hname, hnew, -, rfl, rfl⟩ := place_eq_ok hplace
  · rw [hdeclares] at hnone
    cases hnone
  · rw [hdeclares, Option.some.injEq] at hname
    subst hname
    refine ⟨?_, hextends.knows (knows_withSymbol s)⟩
    intro hempty
    simp [checkNew, hempty] at hnew

end Statement

namespace Section

variable {s : Section} {id : SectionId} {stop : Word} {ctx after : Context} {p : PlacedSection}
  {identifier : String}

theorem construct_extends (h : s.construct id stop ctx = .ok p after) :
    (ctx.openSection id p.start).2.Extends after := by
  obtain ⟨-, hitems, -⟩ := construct_ok h
  exact (Statement.constructAll_advance (Statement.isLeaf_of_mem_allLeaves _) hitems).2

theorem construct_error {start : Word} (hstart : s.startAfter stop = .ok start) {e : AssemblyError}
    (h : Statement.constructAll (Statement.allLeaves s.contents) (ctx.openSection id start).2 =
      .error e after) : s.construct id stop ctx = .error e after := by
  rw [← Statement.constructAll_allLeaves] at h
  simp only [construct, hstart, bind_eq_error, modify_apply]
  refine .inr ⟨⟨⟩, _, rfl, .inl h⟩

/-- A name that a section declares: that of its start, or that of a leaf. -/
def Declares (s : Section) (id : SectionId) (identifier : String) : Prop :=
  identifier = startName id ∨
    ∃ leaf ∈ Statement.allLeaves s.contents, leaf.declares? = some identifier

theorem construct_knows (h : s.construct id stop ctx = .ok p after)
    (hknows : ctx.Knows identifier) : after.Knows identifier :=
  (construct_extends h).knows (hknows.openSection id p.start)

/-- After a section the table holds what it declares. -/
theorem construct_declares (h : s.construct id stop ctx = .ok p after)
    (hdeclares : s.Declares id identifier) : identifier ≠ "" ∧ after.Knows identifier := by
  rcases hdeclares with rfl | ⟨leaf, hleaf, hdeclares⟩
  · exact ⟨startName_ne_empty id, (construct_extends h).knows (knows_openSection ctx id p.start)⟩
  · obtain ⟨-, hitems, -⟩ := construct_ok h
    exact Statement.constructAll_knows (Statement.isLeaf_of_mem_allLeaves _) hitems hleaf hdeclares

end Section

namespace ObjectFile

theorem constructSections_knows {l : List Section} {id : SectionId} {stop : Word}
    {ctx after : Context} {placed : List PlacedSection}
    (h : constructSections id stop [] ctx l = (.ok (), after, placed)) {identifier : String}
    (hknows : ctx.Knows identifier) : after.Knows identifier := by
  induction l generalizing id stop ctx placed with
  | nil =>
    cases h
    exact hknows
  | cons s l ih =>
    obtain ⟨p, next, rest, hp, hrest, rfl⟩ := constructSections_cons_eq_ok.1 h
    exact ih hrest (Section.construct_knows hp hknows)

/-- A run over sections fails with the error of the first that cannot be laid out. -/
theorem constructSections_error {l : List Section} {id : Nat} {stop : Word}
    {ctx mid after : Context} {before : List PlacedSection} {k : Nat}
    (h : constructSections id stop [] ctx (l.take k) = (.ok (), mid, before)) {s : Section}
    (hk : l[k]? = some s) {e : AssemblyError}
    (he : s.construct (id + k) (stopAfter stop before) mid = .error e after) :
    (constructSections id stop [] ctx l).1 = .error e := by
  induction l generalizing id stop ctx before k with
  | nil => simp at hk
  | cons first l ih =>
    cases k with
    | zero =>
      simp only [List.getElem?_cons_zero, Option.some.injEq] at hk
      subst hk
      cases h
      have hfirst : first.construct id stop mid = .error e after := he
      rw [constructSections, hfirst]
    | succ k =>
      rw [List.take_succ_cons, constructSections_cons_eq_ok] at h
      obtain ⟨p, next, rest, hp, hrest, rfl⟩ := h
      rw [constructSections, hp]
      dsimp only
      rw [constructSections_placed]
      rw [stopAfter_cons, show id + (k + 1) = id + 1 + k by omega] at he
      exact ih hrest (by simpa using hk) he

/-- A name is declared before leaf `j` of section `k`. -/
def DeclaredBefore (obj : ObjectFile) (k j : Nat) (identifier : String) : Prop :=
  (∃ n s, n < k ∧ obj.sections[n]? = some s ∧ s.Declares n identifier) ∨
    identifier = startName k ∨
    ∃ s leaf, obj.sections[k]? = some s ∧ leaf ∈ (Statement.allLeaves s.contents).take j ∧
      leaf.declares? = some identifier

/-- Where a leaf is visited the table holds what is declared before it. -/
theorem Visits.knows {obj : ObjectFile} {k j : Nat} {leaf : Statement} {made : List Item}
    {ctx : Context} (h : obj.Visits k j leaf made ctx) {identifier : String}
    (hbefore : obj.DeclaredBefore k j identifier) : identifier ≠ "" ∧ ctx.Knows identifier := by
  obtain ⟨s, before, mid, start, hk, -, hrun, -, hmade⟩ := h
  have hleaves : ∀ x ∈ (Statement.allLeaves s.contents).take j, x.IsLeaf :=
    fun x hx => Statement.isLeaf_of_mem_allLeaves s.contents x (List.mem_of_mem_take hx)
  obtain ⟨-, hextends⟩ := Statement.constructAll_advance hleaves hmade
  obtain ⟨n, t, hn, ht, hdeclares⟩ | rfl | ⟨t, leaf, ht, hleaf, hdeclares⟩ := hbefore
  · have htake : (obj.sections.take k)[n]? = some t := by rw [List.getElem?_take_of_lt hn, ht]
    obtain ⟨before', mid', p, next, rest, -, -, hp, hrest, -⟩ := constructSections_split hrun htake
    rw [Nat.zero_add] at hp
    obtain ⟨hne, hknows⟩ := Section.construct_declares hp hdeclares
    exact ⟨hne, hextends.knows ((constructSections_knows hrest hknows).openSection k start)⟩
  · exact ⟨startName_ne_empty k, hextends.knows (knows_openSection mid k start)⟩
  · rw [hk, Option.some.injEq] at ht
    subst ht
    exact Statement.constructAll_knows hleaves hmade hleaf hdeclares

/-- A leaf that declares a name again stops the first pass. -/
theorem construct_duplicate {obj : ObjectFile} (hfresh : obj.stage = .fresh) {k j : Nat}
    {leaf : Statement} {made : List Item} {ctx : Context} (h : obj.Visits k j leaf made ctx)
    {identifier : String} (hdeclares : leaf.declares? = some identifier)
    (hbefore : obj.DeclaredBefore k j identifier) :
    obj.construct.1 = .error (.duplicateSymbol identifier) := by
  obtain ⟨hne, hknows⟩ := h.knows hbefore
  obtain ⟨s, before, mid, start, hk, hj, hrun, hstart, hmade⟩ := h
  have hleaf := Statement.isLeaf_of_mem_allLeaves s.contents leaf (List.mem_of_getElem? hj)
  have hwalk := Statement.constructAll_error hmade hj hleaf
    (Statement.place_duplicate hdeclares hne hknows)
  have hsection := Section.construct_error hstart hwalk
  rw [← Nat.zero_add k] at hsection
  have hall := constructSections_error hrun hk hsection
  rw [construct_of_fresh hfresh]
  exact hall

end ObjectFile

/-! ## Where symbols are at home -/

namespace Context

/-- Nothing in the table is at home in section `n` or after it. -/
def HomesBelow (n : Nat) (ctx : Context) : Prop :=
  ∀ s ∈ ctx.symbols.symbols, ∀ home, s.home = some home → home < n

variable {n : Nat} {ctx : Context}

theorem HomesBelow.mono {m : Nat} (h : ctx.HomesBelow n) (hle : n ≤ m) : ctx.HomesBelow m :=
  fun s hs home hhome => Nat.lt_of_lt_of_le (h s hs home hhome) hle

theorem HomesBelow.withSymbol (h : ctx.HomesBelow n) {s : Symbol}
    (hs : ∀ home, s.home = some home → home < n) : (ctx.withSymbol s).HomesBelow n := by
  intro u hu
  rcases SymbolTable.mem_of_mem_insert hu with rfl | hu
  · exact hs
  · exact h u hu

theorem HomesBelow.homeOf? (h : ctx.HomesBelow n) {id : SymbolId} {home : SectionId}
    (hhome : Value.homeOf? ctx.symbols id = some home) : home < n := by
  obtain ⟨s, hs, hhome⟩ := Option.bind_eq_some_iff.1 hhome
  exact h s (List.mem_of_getElem? hs) home hhome

theorem HomesBelow.openSection (h : ctx.HomesBelow n) (start : Word) :
    (ctx.openSection n start).2.HomesBelow (n + 1) := by
  have hentered : (ctx.enterSection n start).HomesBelow (n + 1) := h.mono (Nat.le_succ n)
  apply hentered.withSymbol
  intro home hhome
  cases hhome
  exact Nat.lt_succ_self n

end Context

namespace Statement

/-- A leaf of section `n` stands for something in that section or in one before it. -/
theorem home_lt_of_symbolIn? {leaf : Statement} {ctx : Context} {n : Nat} {s : Symbol}
    (hs : leaf.symbolIn? ctx = some s) (hcurrent : ctx.current = some n)
    (h : ctx.HomesBelow (n + 1)) : ∀ home, s.home = some home → home < n + 1 := by
  intro home hhome
  cases leaf with
  | label identifier kind =>
    cases hs
    rw [hcurrent, Option.some.injEq] at hhome
    exact hhome ▸ Nat.lt_succ_self n
  | define identifier expr kind =>
    simp only [symbolIn?, Option.bind_eq_bind, Option.bind_eq_some_iff] at hs
    obtain ⟨v, -, hs⟩ := hs
    split at hs
    · cases hs
      cases hhome
    · obtain ⟨home', hhome', rfl⟩ := Option.map_eq_some_iff.1 hs
      cases hhome
      exact h.homeOf? hhome'
    · cases hs
  | external identifier =>
    cases hs
    cases hhome
  | _ => cases hs

theorem constructAll_homesBelow {l : List Statement} (hl : ∀ leaf ∈ l, leaf.IsLeaf)
    {ctx after : Context} {items : List Item} (h : constructAll l ctx = .ok items after) {n : Nat}
    (hcurrent : ctx.current = some n) (hhomes : ctx.HomesBelow (n + 1)) :
    after.HomesBelow (n + 1) := by
  refine (constructAll_keeps (P := fun ctx => ctx.current = some n ∧ ctx.HomesBelow (n + 1)) hl
    (fun _ _ hctx => hctx) (fun leaf _ ctx after items hplace hctx => ?_) h
    ⟨hcurrent, hhomes⟩).2
  obtain ⟨-, rfl⟩ | ⟨_, s, -, -, hs, -, rfl⟩ := place_eq_ok hplace
  · exact hctx
  · exact ⟨hctx.1, hctx.2.withSymbol (home_lt_of_symbolIn? hs hctx.1 hctx.2)⟩

end Statement

namespace ObjectFile

/-- After sections are laid out, nothing is at home in a section behind them. -/
theorem constructSections_homesBelow {l : List Section} {id : Nat} {stop : Word}
    {ctx after : Context} {placed : List PlacedSection}
    (h : constructSections id stop [] ctx l = (.ok (), after, placed))
    (hhomes : ctx.HomesBelow id) : after.HomesBelow (id + l.length) := by
  induction l generalizing id stop ctx placed with
  | nil =>
    cases h
    exact hhomes
  | cons s l ih =>
    obtain ⟨p, next, rest, hp, hrest, rfl⟩ := constructSections_cons_eq_ok.1 h
    obtain ⟨-, hitems, -⟩ := Section.construct_ok hp
    have hnext := Statement.constructAll_homesBelow (Statement.isLeaf_of_mem_allLeaves _) hitems rfl
      (hhomes.openSection p.start)
    have hafter := ih hrest hnext
    rw [List.length_cons]
    exact hafter.mono (by omega)

/-- Where a leaf is visited, nothing is at home in a later section. -/
theorem Visits.homesBelow {obj : ObjectFile} {k j : Nat} {leaf : Statement} {made : List Item}
    {ctx : Context} (h : obj.Visits k j leaf made ctx) :
    ctx.current = some k ∧ ctx.HomesBelow (k + 1) := by
  obtain ⟨s, before, mid, start, hk, -, hrun, -, hmade⟩ := h
  have hleaves : ∀ x ∈ (Statement.allLeaves s.contents).take j, x.IsLeaf :=
    fun x hx => Statement.isLeaf_of_mem_allLeaves s.contents x (List.mem_of_mem_take hx)
  have hmid : mid.HomesBelow k := by
    have hempty : (Context.new obj.context.mode).HomesBelow 0 := nofun
    apply (constructSections_homesBelow hrun hempty).mono
    rw [List.length_take]
    omega
  exact ⟨(Statement.constructAll_advance hleaves hmade).2.current,
    Statement.constructAll_homesBelow hleaves hmade rfl (hmid.openSection start)⟩

/-- The start of a section takes its name, and a later section leaves it at home there or later. -/
theorem constructSections_home {l : List Section} {id : Nat} {stop : Word} {ctx after : Context}
    {placed : List PlacedSection}
    (h : constructSections id stop [] ctx l = (.ok (), after, placed)) {identifier : String}
    {n : Nat} (hn : n ≤ id)
    (hname : (∃ m, id ≤ m ∧ m < id + l.length ∧ identifier = startName m) ∨
      ∃ s home, ctx.symbols.find? identifier = some s ∧ s.home = some home ∧ n ≤ home) :
    ∃ s home, after.symbols.find? identifier = some s ∧ s.home = some home ∧ n ≤ home := by
  induction l generalizing id stop ctx placed with
  | nil =>
    cases h
    rcases hname with ⟨m, hle, hlt, -⟩ | hname
    · rw [List.length_nil] at hlt
      omega
    · exact hname
  | cons s l ih =>
    obtain ⟨p, next, rest, hp, hrest, rfl⟩ := constructSections_cons_eq_ok.1 h
    have hextends := Section.construct_extends hp
    apply ih hrest (by omega)
    by_cases hstart : identifier = startName id
    · subst hstart
      exact .inr ⟨_, id, hextends.find? (SymbolTable.find?_insert_self _ _), rfl, hn⟩
    · rcases hname with ⟨m, hle, hlt, hm⟩ | ⟨u, home, hu, hhome, hle⟩
      · rw [List.length_cons] at hlt
        have hne : m ≠ id := by
          rintro rfl
          exact hstart hm
        exact .inl ⟨m, by omega, by omega, hm⟩
      · exact .inr ⟨u, home, Section.construct_find? hp hstart hu, hhome, hle⟩

/-- What an accepted leaf declares is in the table after its section, and is kept unless the start
of a later section has its name. -/
theorem find?_of_declares {obj built : ObjectFile} (h : obj.construct = (.ok (), built)) {k j : Nat}
    {s : Section} {leaf : Statement} {identifier : String} (hk : obj.sections[k]? = some s)
    (hj : (Statement.allLeaves s.contents)[j]? = some leaf)
    (hdeclares : leaf.declares? = some identifier) :
    ∃ made ctx symbol, obj.Visits k j leaf made ctx ∧ leaf.symbolIn? ctx = some symbol ∧
      symbol.identifier = identifier ∧
      (built.context.symbols.find? identifier = some symbol ↔
        ∀ n, k < n → n < obj.sections.length → identifier ≠ startName n) := by
  obtain ⟨hrun, -⟩ := construct_ok h
  obtain ⟨before, mid, p, next, rest, htake, -, hp, hrest, -⟩ := constructSections_split hrun hk
  rw [Nat.zero_add] at hp hrest
  obtain ⟨hstart, hitems, -⟩ := Section.construct_ok hp
  have hleaves := Statement.isLeaf_of_mem_allLeaves s.contents
  obtain ⟨made, ctx, own, placed, later, hmade, hplace, hlater, -⟩ :=
    Statement.constructAll_split hleaves hitems hj
  have hvisits : obj.Visits k j leaf made ctx :=
    ⟨s, before, mid, p.start, hk, hj, htake, hstart, hmade⟩
  obtain ⟨hnone, -⟩ | ⟨name, symbol, hname, -, hsymbol, hidentifier, rfl⟩ :=
    Statement.place_eq_ok hplace
  · rw [hdeclares] at hnone
    cases hnone
  rw [hdeclares, Option.some.injEq] at hname
  subst hname
  refine ⟨made, ctx, symbol, hvisits, hsymbol, hidentifier, ?_⟩
  have hlength : k + 1 + (obj.sections.drop (k + 1)).length = obj.sections.length := by
    have hlt := (List.getElem?_eq_some_iff.1 hk).1
    rw [List.length_drop]
    omega
  have hnext : next.symbols.find? identifier = some symbol := by
    obtain ⟨-, hextends⟩ :=
      Statement.constructAll_advance (fun x hx => hleaves x (List.mem_of_mem_drop hx)) hlater
    apply hextends.find?
    rw [← hidentifier]
    exact SymbolTable.find?_insert_self _ _
  constructor
  · intro hfind n hkn hn heq
    -- the start of section `n` is at home behind everything that section `k` can name
    obtain ⟨u, home, hu, hhome, hle⟩ := constructSections_home hrest (Nat.le_refl (k + 1))
      (.inl ⟨n, hkn, by omega, heq⟩)
    rw [hfind, Option.some.injEq] at hu
    subst hu
    obtain ⟨hcurrent, hhomes⟩ := hvisits.homesBelow
    have hlt := Statement.home_lt_of_symbolIn? hsymbol hcurrent hhomes home hhome
    exact absurd hlt (Nat.not_lt.2 hle)
  · intro hnames
    exact constructSections_find? hrest (fun n hle hlt => hnames n hle (by omega)) hnext

/-- A leaf that declares a name again stops the first pass. Where that comes to its end, every leaf
still stands in the table with the symbol that it was given, unless the start of a later section has
its name. -/
theorem declarations_kept (obj : ObjectFile) (hfresh : obj.stage = .fresh) :
    (∀ k j leaf made ctx identifier, obj.Visits k j leaf made ctx →
      leaf.declares? = some identifier → obj.DeclaredBefore k j identifier →
      obj.construct.1 = .error (.duplicateSymbol identifier)) ∧
    (∀ built, obj.construct = (.ok (), built) → ∀ k j s leaf identifier,
      obj.sections[k]? = some s → (Statement.allLeaves s.contents)[j]? = some leaf →
      leaf.declares? = some identifier →
      ∃ made ctx symbol, obj.Visits k j leaf made ctx ∧ leaf.symbolIn? ctx = some symbol ∧
        symbol.identifier = identifier ∧ ¬ obj.DeclaredBefore k j identifier ∧
        (built.context.symbols.find? identifier = some symbol ↔
          ∀ n, k < n → n < obj.sections.length → identifier ≠ startName n)) := by
  constructor
  · intro k j leaf made ctx identifier hvisits hdeclares hbefore
    exact construct_duplicate hfresh hvisits hdeclares hbefore
  · intro built h k j s leaf identifier hk hj hdeclares
    obtain ⟨made, ctx, symbol, hvisits, hsymbol, hidentifier, hkept⟩ :=
      find?_of_declares h hk hj hdeclares
    refine ⟨made, ctx, symbol, hvisits, hsymbol, hidentifier, ?_, hkept⟩
    intro hbefore
    have herror := construct_duplicate hfresh hvisits hdeclares hbefore
    rw [h] at herror
    cases herror

/-- A label with the name of the start of the section after its own. -/
def shadowed : ObjectFile :=
  { ObjectFile.new .bit32 .flat with
    sections :=
      [{ Section.new "text" .text with contents := [.label "section.1.start" .internal] },
        Section.new "data" .data] }

/-- A label that is declared as an external in the section after its own. -/
def redeclared : ObjectFile :=
  { ObjectFile.new .bit32 .flat with
    sections :=
      [{ Section.new "text" .text with contents := [.group [.label "entry" .exported]] },
        { Section.new "data" .data with contents := [.comment "", .external "entry"] }] }

/-- A label with the name of a section start is lost to that section, and a name cannot be declared
twice. -/
theorem declarations_kept_shadowed :
    (∃ made ctx symbol, shadowed.Visits 0 0 (.label "section.1.start" .internal) made ctx ∧
      Statement.symbolIn? ctx (.label "section.1.start" .internal) = some symbol ∧
      shadowed.construct.2.context.symbols.find? "section.1.start" ≠ some symbol) ∧
    redeclared.construct.1 = .error (.duplicateSymbol "entry") := by
  constructor
  · have hbuilt : shadowed.construct = (.ok (), shadowed.construct.2) :=
      Prod.ext (eq_ok_of_toOption (by decide +kernel)) rfl
    obtain ⟨made, ctx, symbol, hvisits, hsymbol, -, -, hkept⟩ :=
      (declarations_kept shadowed rfl).2 _ hbuilt 0 0 _ _ _ rfl rfl rfl
    refine ⟨made, ctx, symbol, hvisits, hsymbol, fun hfind => ?_⟩
    exact hkept.1 hfind 1 (by decide) (by decide) (by decide +kernel)
  · refine (declarations_kept redeclared rfl).1 1 1 (.external "entry") _ _ "entry"
      ⟨_, _, _, _, rfl, rfl, rfl, rfl, rfl⟩ rfl (.inl ⟨0, _, by decide, rfl, .inr ?_⟩)
    exact ⟨.label "entry" .exported, List.mem_cons_self, rfl⟩

/-- A label is lost without an error to the start of a section that has its name. -/
theorem construct_shadowed :
    shadowed.construct.1.toOption = some () ∧
      (Statement.label "section.1.start" .internal) ∈
        shadowed.sections.flatMap (Statement.allLeaves ∘ Section.contents) ∧
      (shadowed.construct.2.context.symbols.find? "section.1.start").map Symbol.home =
        some (some 1) := by
  refine ⟨by decide +kernel, List.mem_cons_self, by decide +kernel⟩

end ObjectFile

end Assembler
