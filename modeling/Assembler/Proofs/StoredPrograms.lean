import Assembler.Program.Reader
import Assembler.Program.Writer
import Assembler.Proofs.Expressions
import Assembler.Proofs.JsonText

/-!
# Stored programs

A program is written with every member present, and read back with some of them missing: a member
that is `null`, or that has the value which stands for it when it is left out. `Json.Abridges` says
that a value is another one with such members left out, at any depth and independently of each
other. The writers give a value from which the readers get what was written, however it is abridged;
that is `Json.Restores`. It composes along the shapes that values are written in: names, lists, the
cases of a choice (`Restores.case`) and the members of a record (`IsRecordOf`).

What is read from a value is read from its texts as well, if arrays and objects are not nested too
deep for them to be told apart.

Main statement: `Program.read_stored`.
-/

namespace Assembler

namespace Json

/-! ## Values with members left out -/

/-- The values that stand for members when they are left out. Records that share the name of such a
member share its value, so that the name is enough to find it. -/
def storedDefaults : List (String × Json) :=
  [("mode", .string "Bit32"), ("kind", .string "Text"), ("alignment", ofNat 1),
    ("contents", .array []), ("operands", .array []), ("symbol_type", .string "None"),
    ("fill", ofNat 0)]

/-- A member that can be left out: one without a value, or with the value that stands for it. -/
def IsOmissible (key : String) (value : Json) : Prop :=
  value = .null ∨ (key, value) ∈ storedDefaults

mutual

/-- The second value is the first with some members left out. -/
inductive Abridges : Json → Json → Prop
  | same (j : Json) : Abridges j j
  | array {items kept : List Json} (h : AbridgesItems items kept) :
    Abridges (.array items) (.array kept)
  | object {members kept : List (String × Json)} (h : AbridgesMembers members kept) :
    Abridges (.object members) (.object kept)

/-- Every item is kept, and may be abridged. -/
inductive AbridgesItems : List Json → List Json → Prop
  | nil : AbridgesItems [] []
  | cons {j j' : Json} {items kept : List Json} (head : Abridges j j')
    (tail : AbridgesItems items kept) : AbridgesItems (j :: items) (j' :: kept)

/-- Every member is kept, and may be abridged, or is left out where it can be. -/
inductive AbridgesMembers : List (String × Json) → List (String × Json) → Prop
  | nil : AbridgesMembers [] []
  | keep {key : String} {j j' : Json} {members kept : List (String × Json)} (head : Abridges j j')
    (tail : AbridgesMembers members kept) :
    AbridgesMembers ((key, j) :: members) ((key, j') :: kept)
  | drop {key : String} {j : Json} {members kept : List (String × Json)} (head : IsOmissible key j)
    (tail : AbridgesMembers members kept) : AbridgesMembers ((key, j) :: members) kept

end

/-- A value without parts. -/
def IsPlain : Json → Prop
  | .array _ => False
  | .object _ => False
  | _ => True

theorem AbridgesItems.same (items : List Json) : AbridgesItems items items := by
  induction items with
  | nil => exact .nil
  | cons j items ih => exact .cons (.same j) ih

theorem AbridgesMembers.same (members : List (String × Json)) :
    AbridgesMembers members members := by
  induction members with
  | nil => exact .nil
  | cons m members ih => exact .keep (.same m.2) ih

theorem Abridges.eq_of_isPlain {j kept : Json} (h : Abridges j kept) (hj : j.IsPlain) :
    kept = j := by
  cases h with
  | same => rfl
  | array | object => exact hj.elim

theorem Abridges.of_array {items : List Json} {kept : Json} (h : Abridges (.array items) kept) :
    ∃ items', kept = .array items' ∧ AbridgesItems items items' := by
  cases h with
  | same => exact ⟨items, rfl, .same items⟩
  | array h => exact ⟨_, rfl, h⟩

theorem Abridges.of_object {members : List (String × Json)} {kept : Json}
    (h : Abridges (.object members) kept) :
    ∃ members', kept = .object members' ∧ AbridgesMembers members members' := by
  cases h with
  | same => exact ⟨members, rfl, .same members⟩
  | object h => exact ⟨_, rfl, h⟩

theorem Abridges.ne_null {j kept : Json} (h : Abridges j kept) (hj : j ≠ .null) : kept ≠ .null := by
  cases h with
  | same => exact hj
  | array | object => nofun

/-- The members of a record that is written with different names, some of them left out. -/
structure IsRecordOf (members kept : List (String × Json)) : Prop where
  nodup : (members.map Prod.fst).Nodup
  abridges : AbridgesMembers members kept

theorem not_isOmissible {key : String} {value : Json} (hvalue : value ≠ .null)
    (hkey : key ∉ storedDefaults.map Prod.fst) : ¬ IsOmissible key value := by
  rintro (hnull | hdefault)
  · exact hvalue hnull
  · exact hkey (List.mem_map_of_mem hdefault)

/-- Of a list of names without duplicates, every name has its own value. -/
theorem lookup_of_mem {α : Type} {l : List (String × α)} (hnodup : (l.map Prod.fst).Nodup)
    {name : String} {a : α} (h : (name, a) ∈ l) : l.lookup name = some a := by
  obtain ⟨before, after, rfl⟩ := List.append_of_mem h
  rw [List.lookup_eq_some_iff]
  refine ⟨before, after, rfl, fun p hp => ?_⟩
  rw [List.map_append, List.nodup_append] at hnodup
  have hne := hnodup.2.2 p.1 (List.mem_map_of_mem hp) name (by simp)
  simpa using hne.symm

/-! ## Values that are read back -/

variable {α : Type}

/-- From a value, and from what is left of it when it is abridged, a reader gets `a`. -/
structure Restores (read : Json → Option α) (json : Json) (a : α) : Prop where
  ne_null : json ≠ .null
  read_eq : ∀ kept, Abridges json kept → read kept = some a

namespace Restores

variable {read : Json → Option α} {json : Json} {a : α}

theorem of_isPlain (hplain : json.IsPlain) (hnull : json ≠ .null) (h : read json = some a) :
    Restores read json a := by
  refine ⟨hnull, fun kept hkept => ?_⟩
  rwa [hkept.eq_of_isPlain hplain]

theorem self (h : Restores read json a) : read json = some a := h.read_eq json (.same json)

/-- A case keeps its payload. -/
theorem case {name : String} {payload : Json} (hnull : payload ≠ .null)
    (hname : name ∉ storedDefaults.map Prod.fst)
    (h : ∀ kept, Abridges payload kept → read (caseJson name kept) = some a) :
    Restores read (caseJson name payload) a := by
  refine ⟨nofun, fun kept hkept => ?_⟩
  obtain ⟨members, rfl, hmembers⟩ := hkept.of_object
  cases hmembers with
  | keep hpayload hrest =>
    cases hrest
    exact h _ hpayload
  | drop homit _ => exact absurd homit (not_isOmissible hnull hname)

/-- A case whose payload is read on its own. -/
theorem case_map {β : Type} {name : String} {payload : Json} {readPayload : Json → Option β} {b : β}
    {f : β → α} (hpayload : Restores readPayload payload b)
    (hname : name ∉ storedDefaults.map Prod.fst)
    (h : ∀ j, read (caseJson name j) = (readPayload j).map f) :
    Restores read (caseJson name payload) (f b) := by
  refine .case hpayload.ne_null hname fun kept hkept => ?_
  rw [h, hpayload.read_eq kept hkept, Option.map_some]

/-- A record keeps what cannot be left out. -/
theorem object {members : List (String × Json)} (hnodup : (members.map Prod.fst).Nodup)
    (h : ∀ kept, IsRecordOf members kept → read (.object kept) = some a) :
    Restores read (.object members) a := by
  refine ⟨nofun, fun kept hkept => ?_⟩
  obtain ⟨members', rfl, hmembers⟩ := hkept.of_object
  exact h members' ⟨hnodup, hmembers⟩

/-- A case whose payload is a record. -/
theorem case_object {name : String} {members : List (String × Json)}
    (hname : name ∉ storedDefaults.map Prod.fst) (hnodup : (members.map Prod.fst).Nodup)
    (h : ∀ kept, IsRecordOf members kept → read (caseJson name (.object kept)) = some a) :
    Restores read (caseJson name (.object members)) a := by
  refine .case nofun hname fun kept hkept => ?_
  obtain ⟨members', rfl, hmembers⟩ := hkept.of_object
  exact h members' ⟨hnodup, hmembers⟩

end Restores

/-- A list is read back item by item, however the items are abridged. -/
theorem mapM_of_abridgesItems {read : Json → Option α} {write : α → Json} {l : List α}
    (h : ∀ a ∈ l, Restores read (write a) a) {kept : List Json}
    (hkept : AbridgesItems (l.map write) kept) : kept.mapM read = some l := by
  induction l generalizing kept with
  | nil =>
    cases hkept
    rfl
  | cons a l ih =>
    cases hkept with
    | cons head tail =>
      rw [List.mapM_cons, (h a List.mem_cons_self).read_eq _ head,
        ih (fun b hb => h b (List.mem_cons_of_mem a hb)) tail]
      rfl

/-- A list keeps its items. -/
theorem Restores.list {read : Json → Option α} {write : α → Json} {l : List α}
    (h : ∀ a ∈ l, Restores read (write a) a) :
    Restores (list? read) (.array (l.map write)) l := by
  refine ⟨nofun, fun kept hkept => ?_⟩
  obtain ⟨items, rfl, hitems⟩ := hkept.of_array
  exact mapM_of_abridgesItems h hitems

/-! ## Members of a record -/

theorem filter_key_eq_nil {members : List (String × Json)} {key : String}
    (h : key ∉ members.map Prod.fst) : members.filter (fun m => m.1 == key) = [] := by
  rw [List.filter_eq_nil_iff]
  intro m hm hkey
  exact h (beq_iff_eq.1 hkey ▸ List.mem_map_of_mem hm)

theorem member?_of_not_mem {members : List (String × Json)} {key : String}
    (h : key ∉ members.map Prod.fst) : member? members key = some none := by
  rw [member?, filter_key_eq_nil h]

theorem member?_cons_self {members : List (String × Json)} {key : String}
    (h : key ∉ members.map Prod.fst) (j : Json) :
    member? ((key, j) :: members) key = some (some j) := by
  rw [member?, List.filter_cons_of_pos (by simp), filter_key_eq_nil h]

theorem member?_cons_of_ne {members : List (String × Json)} {key other : String}
    (h : other ≠ key) (j : Json) : member? ((other, j) :: members) key = member? members key := by
  rw [member?, List.filter_cons_of_neg (by simpa using h), member?]

theorem AbridgesMembers.keys_subset {members kept : List (String × Json)}
    (h : AbridgesMembers members kept) : kept.map Prod.fst ⊆ members.map Prod.fst := by
  induction members generalizing kept with
  | nil =>
    cases h
    exact List.Subset.refl _
  | cons m members ih =>
    cases h with
    | keep _ tail => exact List.cons_subset_cons _ (ih tail)
    | drop _ tail => exact List.subset_cons_of_subset _ (ih tail)

namespace IsRecordOf

variable {members kept : List (String × Json)} {json : Json} {read : Json → Option α} {a : α}

/-- A member is there, or it could be left out. -/
theorem member?_cases (h : IsRecordOf members kept) {key : String} (hmem : (key, json) ∈ members) :
    (∃ j, member? kept key = some (some j) ∧ Abridges json j) ∨
      (member? kept key = some none ∧ IsOmissible key json) := by
  obtain ⟨hnodup, habridges⟩ := h
  induction members generalizing kept with
  | nil => cases hmem
  | cons m members ih =>
    obtain ⟨name, value⟩ := m
    rw [List.map_cons, List.nodup_cons] at hnodup
    obtain ⟨hnew, hrest⟩ := hnodup
    cases habridges with
    | keep head tail =>
      have hgone := fun hkey => hnew (tail.keys_subset hkey)
      rcases List.mem_cons.1 hmem with heq | hmem
      · cases heq
        exact .inl ⟨_, member?_cons_self hgone _, head⟩
      · have hne : name ≠ key := by
          rintro rfl
          exact hnew (List.mem_map.2 ⟨_, hmem, rfl⟩)
        rw [member?_cons_of_ne hne]
        exact ih hmem hrest tail
    | drop head tail =>
      rcases List.mem_cons.1 hmem with heq | hmem
      · cases heq
        exact .inr ⟨member?_of_not_mem fun hkey => hnew (tail.keys_subset hkey), head⟩
      · exact ih hmem hrest tail

/-- A member without a default is there. -/
theorem required (h : IsRecordOf members kept) (key : String) (hmem : (key, json) ∈ members)
    (ha : Restores read json a) (hkey : key ∉ storedDefaults.map Prod.fst) :
    Json.required kept key read = some a := by
  rcases h.member?_cases hmem with ⟨j, hj, hjson⟩ | ⟨-, homit⟩
  · rw [Json.required, hj]
    exact ha.read_eq j hjson
  · exact absurd homit (not_isOmissible ha.ne_null hkey)

/-- A member that is left out stands for its default. -/
theorem defaulted (h : IsRecordOf members kept) (key : String) (value : α)
    (hmem : (key, json) ∈ members) (ha : Restores read json a) {j : Json}
    (hj : storedDefaults.lookup key = some j) (hvalue : read j = some value) :
    Json.defaulted kept key value read = some a := by
  rcases h.member?_cases hmem with ⟨_, hkept, hjson⟩ | ⟨hnone, hnull | hdefault⟩
  · rw [Json.defaulted, hkept]
    exact ha.read_eq _ hjson
  · exact absurd hnull ha.ne_null
  · rw [lookup_of_mem (by decide) hdefault, Option.some.injEq] at hj
    rw [Json.defaulted, hnone]
    exact hvalue.symm.trans (hj ▸ ha.self)

/-- An option that is left out is absent. -/
theorem optional (h : IsRecordOf members kept) (key : String) {write : α → Json} {value : Option α}
    (hmem : (key, ofOption write value) ∈ members)
    (hvalue : ∀ a ∈ value, Restores read (write a) a) (hkey : key ∉ storedDefaults.map Prod.fst) :
    Json.optional kept key read = some value := by
  cases value with
  | none =>
    rcases h.member?_cases hmem with ⟨j, hj, hjson⟩ | ⟨hnone, -⟩
    · obtain rfl : j = .null := hjson.eq_of_isPlain trivial
      rw [Json.optional, hj]
      rfl
    · rw [Json.optional, hnone]
      rfl
  | some a =>
    have ha := hvalue a rfl
    rcases h.member?_cases hmem with ⟨j, hj, hjson⟩ | ⟨-, homit⟩
    · have hread : j.option? read = (read j).map some := by
        unfold option?
        split
        · exact absurd rfl (hjson.ne_null ha.ne_null)
        · rfl
      rw [Json.optional, hj]
      show j.option? read = _
      rw [hread, ha.read_eq j hjson]
      rfl
    · exact absurd homit (not_isOmissible ha.ne_null hkey)

end IsRecordOf

/-! ## Plain values -/

theorem restores_string (s : String) : Restores string? (.string s) s :=
  .of_isPlain trivial nofun rfl

theorem restores_bool (b : Bool) : Restores bool? (.bool b) b :=
  .of_isPlain trivial nofun rfl

theorem restores_uint8 (b : UInt8) : Restores uint8? (ofNat b.toNat) b := by
  refine .of_isPlain trivial nofun ?_
  rw [uint8?, ofNat, nat?, if_pos b.toNat_lt, Option.map_some, UInt8.ofNat_toNat]

theorem restores_uint64 (n : UInt64) : Restores uint64? (ofNat n.toNat) n := by
  refine .of_isPlain trivial nofun ?_
  rw [uint64?, ofNat, nat?, if_pos n.toNat_lt, Option.map_some, UInt64.ofNat_toNat]

theorem restores_word (w : Word) : Restores word? (ofWord w) w := by
  have hsign : (if decide (w.toInt < 0) then -(w.toInt.natAbs : Int) else w.toInt.natAbs) =
      w.toInt := by
    simp only [decide_eq_true_eq]
    split <;> omega
  have hrange : -Word.pow2 127 ≤ w.toInt ∧ w.toInt < Word.pow2 127 :=
    ⟨BitVec.le_toInt w, BitVec.toInt_lt⟩
  refine .of_isPlain trivial nofun ?_
  rw [ofWord, ofInt, word?, hsign, Word.ofInt?, if_pos hrange, Word.ofInt, BitVec.ofInt_toInt]

/-- A case without payload is known by its name. -/
theorem restores_name [DecidableEq α] {cases : List (String × α)}
    (hnodup : (cases.map Prod.fst).Nodup) {a : α} (ha : a ∈ cases.map Prod.snd) :
    Restores (named? cases) (nameJson cases a) a := by
  obtain ⟨c, hc, rfl⟩ := List.mem_map.1 ha
  obtain ⟨found, hfound⟩ : ∃ found, cases.find? (fun d => d.2 = c.2) = some found :=
    Option.isSome_iff_exists.1 (List.find?_isSome.2 ⟨c, hc, by simp⟩)
  have hsame : found.2 = c.2 := by simpa using List.find?_some hfound
  refine .of_isPlain trivial nofun ?_
  show cases.lookup (nameIn cases c.2) = some c.2
  rw [nameIn, hfound, ← hsame]
  exact lookup_of_mem hnodup (List.mem_of_find?_eq_some hfound)

end Json

open Json

/-! ## Names -/

theorem DataSize.restores (size : DataSize) : Restores DataSize.ofJson? size.toJson size :=
  restores_name (by decide) (by cases size <;> decide)

theorem Mode.restores (mode : Mode) : Restores Mode.ofJson? mode.toJson mode :=
  restores_name (by decide) (by cases mode <;> decide)

theorem SymbolKind.restores (kind : SymbolKind) : Restores SymbolKind.ofJson? kind.toJson kind :=
  restores_name (by decide) (by cases kind <;> decide)

theorem SectionKind.restores (kind : SectionKind) :
    Restores (named? SectionKind.names) (nameJson SectionKind.names kind) kind :=
  restores_name (by decide) (by cases kind <;> decide)

theorem UnaryOp.restores (op : UnaryOp) :
    Restores (named? UnaryOp.names) (nameJson UnaryOp.names op) op :=
  restores_name (by decide) (by cases op <;> decide)

theorem BinaryOp.restores (op : BinaryOp) :
    Restores (named? BinaryOp.names) (nameJson BinaryOp.names op) op :=
  restores_name (by decide) (by cases op <;> decide)

theorem Register.restores (r : Register) : Restores Register.ofJson? r.toJson r := by
  refine restores_name (by decide +kernel) ?_
  have hall : Register.names.map Prod.snd = Register.all := by
    rw [Register.names, List.map_map]
    exact List.map_id _
  rw [hall]
  exact r.mem_all

/-! ## Expressions and operands -/

/-- An expression that is spelled out is read back. -/
theorem Expr.restores {e : Expr} (h : e.IsFunctionFree) : Restores Expr.ofJson? e.toJson e := by
  induction e with
  | constant v =>
    exact .case_map (restores_word v) (by decide) fun j => by rw [caseJson, Expr.ofJson?]
  | position => exact .of_isPlain trivial nofun rfl
  | sectionStart => exact .of_isPlain trivial nofun rfl
  | reference identifier =>
    exact .case_map (restores_string identifier) (by decide) fun j => by rw [caseJson, Expr.ofJson?]
  | unary op e ih =>
    refine .case nofun (by decide) fun kept hkept => ?_
    obtain ⟨items, rfl, hitems⟩ := hkept.of_array
    cases hitems with | cons hop hitems =>
    cases hitems with | cons he hitems =>
    cases hitems
    rw [caseJson, Expr.ofJson?, op.restores.read_eq _ hop, (ih h).read_eq _ he]
    rfl
  | binary op l r ihl ihr =>
    refine .case nofun (by decide) fun kept hkept => ?_
    obtain ⟨items, rfl, hitems⟩ := hkept.of_array
    cases hitems with | cons hop hitems =>
    cases hitems with | cons hl hitems =>
    cases hitems with | cons hr hitems =>
    cases hitems
    rw [caseJson, Expr.ofJson?, op.restores.read_eq _ hop, (ihl h.1).read_eq _ hl,
      (ihr h.2).read_eq _ hr]
    rfl
  | function => exact h.elim

/-- A memory operand is read back. What it does without may be left out. -/
theorem Address.restores {a : Address} (h : ∀ e ∈ a.displacement, e.IsFunctionFree) :
    Restores Address.ofJson? a.toJson a := by
  refine .object (by simp) fun kept hkept => ?_
  have hsize := hkept.required "size" (by simp) a.size.restores (by decide)
  have haddressSize := hkept.optional "address_size" (by simp)
    (fun size (_ : size ∈ a.addressSize) => size.restores) (by decide)
  have hsegment := hkept.optional "segment" (by simp)
    (fun r (_ : r ∈ a.segment) => r.restores) (by decide)
  have hbase := hkept.optional "base" (by simp)
    (fun r (_ : r ∈ a.base) => r.restores) (by decide)
  have hindex := hkept.optional "index" (by simp)
    (fun r (_ : r ∈ a.index) => r.restores) (by decide)
  have hscale := hkept.required "scale" (by simp) (restores_uint8 a.scale) (by decide)
  have hdisplacement := hkept.optional "displacement" (by simp)
    (fun e he => Expr.restores (h e he)) (by decide)
  have hrip := hkept.required "rip_relative" (by simp) (restores_bool a.ripRelative) (by decide)
  simp only [Address.ofJson?, record?, Option.bind_eq_bind, Option.bind_some, hsize, haddressSize,
    hsegment, hbase, hindex, hscale, hdisplacement, hrip]

theorem DirectOffset.restores {m : DirectOffset} (h : m.address.IsFunctionFree) :
    Restores DirectOffset.ofJson? m.toJson m := by
  refine .object (by simp) fun kept hkept => ?_
  have hsize := hkept.required "size" (by simp) m.size.restores (by decide)
  have haddress := hkept.required "address" (by simp) (Expr.restores h) (by decide)
  have hsegment := hkept.optional "segment" (by simp)
    (fun r (_ : r ∈ m.segment) => r.restores) (by decide)
  have haddressSize := hkept.optional "address_size" (by simp)
    (fun size (_ : size ∈ m.addressSize) => size.restores) (by decide)
  simp only [DirectOffset.ofJson?, record?, Option.bind_eq_bind, Option.bind_some, hsize, haddress,
    hsegment, haddressSize]

/-- An operand is read back. -/
theorem Operand.restores {o : Operand} (h : ∀ e ∈ o.exprs, e.IsFunctionFree) :
    Restores Operand.ofJson? o.toJson o := by
  cases o with
  | register r => exact .case_map r.restores (by decide) fun _ => rfl
  | immediate imm =>
    refine .case_object (by decide) (by simp) fun kept hkept => ?_
    have hexpr := hkept.required "expr" (by simp) (Expr.restores (h _ List.mem_cons_self))
      (by decide)
    have hsize := hkept.optional "size" (by simp)
      (fun size (_ : size ∈ imm.size) => size.restores) (by decide)
    simp only [caseJson, Operand.ofJson?, record?, Option.bind_eq_bind, Option.bind_some, hexpr,
      hsize]
  | memory a =>
    have ha : Restores Address.ofJson? a.toJson a :=
      Address.restores fun e he => h e (Option.mem_toList.2 he)
    exact .case_map ha (by decide) fun _ => rfl
  | offset m =>
    exact .case_map (DirectOffset.restores (h _ List.mem_cons_self)) (by decide) fun _ => rfl
  | branch b =>
    refine .case_object (by decide) (by simp) fun kept hkept => ?_
    have htarget := hkept.required "target" (by simp) (Expr.restores (h _ List.mem_cons_self))
      (by decide)
    have hsize := hkept.optional "size" (by simp)
      (fun size (_ : size ∈ b.size) => size.restores) (by decide)
    simp only [caseJson, Operand.ofJson?, record?, Option.bind_eq_bind, Option.bind_some, htarget,
      hsize]

/-! ## Statements -/

theorem Instruction.restores {i : Instruction} (h : ∀ e ∈ i.exprs, e.IsFunctionFree) :
    Restores Instruction.ofJson? i.toJson i := by
  refine .object (by simp) fun kept hkept => ?_
  have hmnemonic := hkept.required "mnemonic" (by simp) (restores_string i.mnemonic) (by decide)
  have hall : ∀ o ∈ i.operands, Restores Operand.ofJson? o.toJson o :=
    fun o ho => Operand.restores fun e he => h e (List.mem_flatMap.2 ⟨o, ho, he⟩)
  have hoperands := hkept.defaulted "operands" [] (by simp) (.list hall) rfl rfl
  simp only [Instruction.ofJson?, record?, Option.bind_eq_bind, Option.bind_some, hmnemonic,
    hoperands]

/-- A data declaration is read back. -/
theorem DataDeclaration.restores {d : DataDeclaration} (h : ∀ e ∈ d.exprs, e.IsFunctionFree) :
    Restores DataDeclaration.ofJson? d.toJson d := by
  cases d with
  | bytes content =>
    have hcontent : Restores (list? uint8?) (.array (content.map fun b => ofNat b.toNat)) content :=
      .list fun b _ => restores_uint8 b
    exact .case_map hcontent (by decide) fun _ => rfl
  | values size exprs =>
    refine .case_object (by decide) (by simp) fun kept hkept => ?_
    have hsize := hkept.required "size" (by simp) size.restores (by decide)
    have hall : ∀ e ∈ exprs, Restores Expr.ofJson? e.toJson e := fun e he => Expr.restores (h e he)
    have hvalues := hkept.required "values" (by simp) (.list hall) (by decide)
    simp only [caseJson, DataDeclaration.ofJson?, record?, Option.bind_eq_bind, Option.bind_some,
      hsize, hvalues]
  | reserve size count =>
    refine .case_object (by decide) (by simp) fun kept hkept => ?_
    have hsize := hkept.required "size" (by simp) size.restores (by decide)
    have hcount := hkept.required "count" (by simp) (restores_uint64 count) (by decide)
    simp only [caseJson, DataDeclaration.ofJson?, record?, Option.bind_eq_bind, Option.bind_some,
      hsize, hcount]

namespace Statement

theorem listToJson_eq_map (l : List Statement) : listToJson l = l.map toJson := by
  induction l with
  | nil => rfl
  | cons s l ih => rw [listToJson, ih, List.map_cons]

theorem listOfJson?_eq_mapM (items : List Json) : listOfJson? items = items.mapM ofJson? := by
  induction items with
  | nil => rfl
  | cons j items ih => rw [listOfJson?, ih, List.mapM_cons]; rfl

mutual

/-- A statement is read back, and groups with all that is in them. -/
theorem restores : (s : Statement) → (∀ leaf ∈ s.leaves, ∀ e ∈ leaf.exprs, e.IsFunctionFree) →
    Restores ofJson? s.toJson s
  | .label identifier kind, _ => by
    refine .case_object (by decide) (by simp) fun kept hkept => ?_
    have hidentifier := hkept.required "identifier" (by simp) (restores_string identifier)
      (by decide)
    have hkind := hkept.defaulted "symbol_type" .plain (by simp) kind.restores rfl rfl
    simp only [caseJson, ofJson?, record?, Option.bind_eq_bind, Option.bind_some, hidentifier,
      hkind]
  | .define identifier expr kind, h => by
    refine .case_object (by decide) (by simp) fun kept hkept => ?_
    have hfree : expr.IsFunctionFree := h _ List.mem_cons_self expr List.mem_cons_self
    have hidentifier := hkept.required "identifier" (by simp) (restores_string identifier)
      (by decide)
    have hexpr := hkept.required "expr" (by simp) (Expr.restores hfree) (by decide)
    have hkind := hkept.defaulted "symbol_type" .plain (by simp) kind.restores rfl rfl
    simp only [caseJson, ofJson?, record?, Option.bind_eq_bind, Option.bind_some, hidentifier,
      hexpr, hkind]
  | .external identifier, _ =>
    .case_map (restores_string identifier) (by decide) fun _ => by rw [caseJson, ofJson?]
  | .align boundary fill, _ => by
    refine .case_object (by decide) (by simp) fun kept hkept => ?_
    have hboundary := hkept.required "boundary" (by simp) (restores_uint64 boundary) (by decide)
    have hfill := hkept.defaulted "fill" 0 (by simp) (restores_uint8 fill) rfl rfl
    simp only [caseJson, ofJson?, record?, Option.bind_eq_bind, Option.bind_some, hboundary, hfill]
  | .data d, h =>
    .case_map (DataDeclaration.restores (h _ List.mem_cons_self)) (by decide) fun _ => by
      rw [caseJson, ofJson?]
  | .comment text, _ =>
    .case_map (restores_string text) (by decide) fun _ => by rw [caseJson, ofJson?]
  | .group children, h => by
    rw [toJson, listToJson_eq_map]
    refine .case nofun (by decide) fun kept hkept => ?_
    obtain ⟨items, rfl, hitems⟩ := hkept.of_array
    rw [caseJson, ofJson?, listOfJson?_eq_mapM,
      mapM_of_abridgesItems (restoresAll children h) hitems]
    rfl
  | .instruction i, h =>
    .case_map (Instruction.restores (h _ List.mem_cons_self)) (by decide) fun _ => by
      rw [caseJson, ofJson?]

theorem restoresAll : (l : List Statement) →
    (∀ leaf ∈ allLeaves l, ∀ e ∈ leaf.exprs, e.IsFunctionFree) →
    ∀ s ∈ l, Restores ofJson? s.toJson s
  | [], _ => nofun
  | s :: rest, h => List.forall_mem_cons.2
    ⟨restores s fun leaf hleaf => h leaf (List.mem_append_left _ hleaf),
      restoresAll rest fun leaf hleaf => h leaf (List.mem_append_right _ hleaf)⟩

end

end Statement

/-! ## Programs -/

/-- A section is read back. Everything but its name has a default. -/
theorem Section.restores {s : Section} (h : s.IsFunctionFree) :
    Restores Section.ofJson? s.toJson s := by
  refine .object (by simp) fun kept hkept => ?_
  have hname := hkept.required "name" (by simp) (restores_string s.name) (by decide)
  have hkind := hkept.defaulted "kind" .text (by simp) s.kind.restores rfl rfl
  have halignment := hkept.defaulted "alignment" 1 (by simp) (restores_uint64 s.alignment) rfl rfl
  have haddress := hkept.optional "address" (by simp)
    (fun w (_ : w ∈ s.address) => restores_word w) (by decide)
  have hall := Statement.restoresAll s.contents fun leaf hleaf => h.of_mem hleaf
  have hcontents := hkept.defaulted "contents" [] (by simp [Statement.listToJson_eq_map])
    (.list hall) rfl rfl
  simp only [Section.ofJson?, record?, Option.bind_eq_bind, Option.bind_some, hname, hkind,
    halignment, haddress, hcontents]

theorem Program.restores {p : Program} (h : ∀ s ∈ p.sections, s.IsFunctionFree) :
    Restores Program.ofJson? p.toJson p := by
  refine .object (by simp) fun kept hkept => ?_
  have hmode := hkept.defaulted "mode" .bit32 (by simp) p.mode.restores rfl rfl
  have hsections := hkept.required "sections" (by simp)
    (.list fun s hs => Section.restores (h s hs)) (by decide)
  simp only [Program.ofJson?, record?, Option.bind_eq_bind, Option.bind_some, hmode, hsections]

/-! ## Texts of programs -/

section IsSpelledOut

@[simp]
theorem isSpelledOut_nameJson {α : Type} [DecidableEq α] (cases : List (String × α)) (a : α) :
    (nameJson cases a).IsSpelledOut := isSpelledOut_string _

@[simp]
theorem isSpelledOut_ofNat (n : Nat) : (ofNat n).IsSpelledOut := isSpelledOut_integer _ _

@[simp]
theorem isSpelledOut_ofWord (w : Word) : (ofWord w).IsSpelledOut := isSpelledOut_integer _ _

@[simp]
theorem isSpelledOut_ofOption {α : Type} {write : α → Json} (h : ∀ a, (write a).IsSpelledOut)
    (value : Option α) : (ofOption write value).IsSpelledOut := by
  cases value with
  | none => exact isSpelledOut_null
  | some a => exact h a

@[simp]
theorem isSpelledOut_caseJson {name : String} {payload : Json} :
    (caseJson name payload).IsSpelledOut ↔ payload.IsSpelledOut := by
  simp [caseJson]

@[simp]
theorem DataSize.isSpelledOut (size : DataSize) : size.toJson.IsSpelledOut :=
  isSpelledOut_nameJson _ _

@[simp]
theorem Register.isSpelledOut (r : Register) : r.toJson.IsSpelledOut := isSpelledOut_nameJson _ _

@[simp]
theorem SymbolKind.isSpelledOut (kind : SymbolKind) : kind.toJson.IsSpelledOut :=
  isSpelledOut_nameJson _ _

@[simp]
theorem Expr.isSpelledOut (e : Expr) : e.toJson.IsSpelledOut := by
  induction e <;> simp [Expr.toJson, *]

@[simp]
theorem Operand.isSpelledOut (o : Operand) : o.toJson.IsSpelledOut := by
  cases o <;> simp [Operand.toJson, Address.toJson, DirectOffset.toJson]

@[simp]
theorem DataDeclaration.isSpelledOut (d : DataDeclaration) : d.toJson.IsSpelledOut := by
  cases d <;> simp [DataDeclaration.toJson]

mutual

theorem Statement.isSpelledOut : (s : Statement) → s.toJson.IsSpelledOut
  | .label .. | .define .. | .external _ | .align .. | .data _ | .comment _ => by
    simp [Statement.toJson]
  | .group children => by
    simpa [Statement.toJson, Statement.listToJson_eq_map] using Statement.allSpelledOut children
  | .instruction i => by simp [Statement.toJson, Instruction.toJson]

theorem Statement.allSpelledOut : (l : List Statement) → ∀ s ∈ l, s.toJson.IsSpelledOut
  | [] => nofun
  | s :: rest => List.forall_mem_cons.2 ⟨s.isSpelledOut, Statement.allSpelledOut rest⟩

end

/-- Nothing of a program is kept as it is written. -/
theorem Program.isSpelledOut (p : Program) : p.toJson.IsSpelledOut := by
  simp [Program.toJson, Mode.toJson, Section.toJson, Statement.listToJson_eq_map,
    Statement.isSpelledOut]

end IsSpelledOut

namespace Program

/-- A program whose expressions are all spelled out is read back from the value that it is written
as, and from every value that is left when members without a value or with their default are left
out there. Where such a value nests within what can be told apart, the program is read back from
every text of the value, among them the two that are written. The program that is read is the same
in every part, and so the object file that is made of it comes to the same answer with the same
bytes and the same tables. -/
theorem read_stored {p : Program} (h : ∀ s ∈ p.sections, s.IsFunctionFree) :
    ofJson? p.toJson = some p ∧ p.toJson.IsSpelledOut ∧
    ∀ stored, Abridges p.toJson stored →
      ofJson? stored = some p ∧
      (NestsWithin maxNesting stored →
        stored.SpellsText stored.compact ∧ stored.SpellsText stored.pretty ∧
        ∀ text, stored.SpellsText text → parse? text = some p) ∧
      ∀ container mode sink,
        (ofJson? stored).map (fun q => (q.toObject container mode).assemble sink) =
          some ((p.toObject container mode).assemble sink) := by
  have hp := Program.restores h
  refine ⟨hp.self, p.isSpelledOut, fun stored hstored => ?_⟩
  have hread := hp.read_eq stored hstored
  refine ⟨hread, fun hnests => ?_, fun container mode sink => ?_⟩
  · refine ⟨spellsText_compact hnests, spellsText_pretty hnests, fun text htext => ?_⟩
    rw [parse?, parse?_of_spellsText htext hnests, Option.bind_some, hread]
  · rw [hread, Option.map_some]

/-- A label and an instruction without operands in a group, with nothing but defaults. -/
def plainProgram : Program :=
  ⟨.bit32, [{ Section.new "text" .text with contents :=
    [.group [.label "start" .plain, .instruction ⟨"ret", []⟩], .align 16 0,
      .instruction ⟨"mov", [.register .eax, .imm (.reference "start")]⟩] }]⟩

/-- What is left of it when everything is left out that can be. -/
def plainStored : Json :=
  .object [("sections", .array [.object [("name", .string "text"), ("contents", .array [
    caseJson "Group" (.array [
      caseJson "Label" (.object [("identifier", .string "start")]),
      caseJson "Instruction" (.object [("mnemonic", .string "ret")])]),
    caseJson "Align" (.object [("boundary", ofNat 16)]),
    caseJson "Instruction" (.object [("mnemonic", .string "mov"), ("operands", .array [
      caseJson "Register" (.string "EAX"),
      caseJson "Immediate" (.object [("expr", caseJson "Reference" (.string "start"))])])])])]])]

/-- Of the plain program everything is left out that can be. -/
theorem abridges_plainStored : Abridges plainProgram.toJson plainStored := by
  have hplain : SymbolKind.toJson .plain = .string "None" := rfl
  have htext : nameJson SectionKind.names .text = .string "Text" := rfl
  have hbit32 : Mode.toJson .bit32 = .string "Bit32" := rfl
  have hkindOmitted : IsOmissible "symbol_type" (SymbolKind.toJson .plain) :=
    .inr (by simp [storedDefaults, hplain])
  have hlabel : Abridges (Statement.toJson (.label "start" .plain))
      (caseJson "Label" (.object [("identifier", .string "start")])) :=
    .object (.keep (.object (.keep (.same _) (.drop hkindOmitted .nil))) .nil)
  have hret : Abridges (Statement.toJson (.instruction ⟨"ret", []⟩))
      (caseJson "Instruction" (.object [("mnemonic", .string "ret")])) :=
    .object (.keep (.object (.keep (.same _) (.drop (.inr (by simp [storedDefaults])) .nil))) .nil)
  have halign : Abridges (Statement.toJson (.align 16 0))
      (caseJson "Align" (.object [("boundary", ofNat 16)])) :=
    .object (.keep (.object (.keep (.same _) (.drop (.inr (by simp [storedDefaults])) .nil))) .nil)
  have himm : Abridges (Operand.toJson (.imm (.reference "start")))
      (caseJson "Immediate" (.object [("expr", caseJson "Reference" (.string "start"))])) :=
    .object (.keep (.object (.keep (.same _) (.drop (.inl rfl) .nil))) .nil)
  have hkind : IsOmissible "kind" (nameJson SectionKind.names .text) :=
    .inr (by simp [storedDefaults, htext])
  have halignment : IsOmissible "alignment" (ofNat (1 : UInt64).toNat) :=
    .inr (by simp [storedDefaults])
  have hmode : IsOmissible "mode" (Mode.toJson .bit32) := .inr (by simp [storedDefaults, hbit32])
  refine .object (.drop hmode (.keep (.array (.cons (.object ?_) .nil)) .nil))
  refine .keep (.same _) (.drop hkind (.drop halignment (.drop (.inl rfl) ?_)))
  refine .keep (.array ?_) .nil
  refine .cons (.object (.keep (.array (.cons hlabel (.cons hret .nil))) .nil)) (.cons halign ?_)
  refine .cons (.object (.keep (.object (.keep (.same _) (.keep (.array ?_) .nil))) .nil)) .nil
  exact .cons (.same _) (.cons himm .nil)

theorem nestsWithin_plainStored : NestsWithin maxNesting plainStored := by
  simp [plainStored, maxNesting, caseJson, ofNat]

/-- The plain program is read back without its defaults, also from a text on several lines. -/
theorem read_stored_plainProgram :
    (∀ s ∈ plainProgram.sections, s.IsFunctionFree) ∧ Abridges plainProgram.toJson plainStored ∧
      ofJson? plainProgram.toJson = some plainProgram ∧
      ofJson? plainStored = some plainProgram ∧ NestsWithin maxNesting plainStored ∧
      parse? plainStored.pretty = some plainProgram := by
  have hfree : ∀ s ∈ plainProgram.sections, s.IsFunctionFree := by decide +kernel
  obtain ⟨hwhole, -, hstored⟩ := read_stored hfree
  obtain ⟨hread, htexts, -⟩ := hstored plainStored abridges_plainStored
  obtain ⟨-, hpretty, hparse⟩ := htexts nestsWithin_plainStored
  exact ⟨hfree, abridges_plainStored, hwhole, hread, nestsWithin_plainStored, hparse _ hpretty⟩

end Program

end Assembler
