import Assembler.Proofs.SymbolTable
import Mathlib.Data.List.Nodup

/-!
# Registering symbols in any order

`afterCalls` is what insertions and definitions make of a table. `Records` is what holds of a table
that was empty before them: it lists each identifier where it first came and holds under it the
symbol that came last. One call keeps that (`Records.step`), and so any calls do
(`records_afterCalls`).

A table finds an identifier by a search through its symbols. `IndexedTable` looks the id up in an
index that is written for new identifiers only, and then relies on it: an id that leads nowhere is a
fault. `IndexedTable.Represents` says that the index answers as the search does, so that there is no
fault.

Main statement: `afterCalls_isFaithful`.
-/

namespace Assembler

namespace SymbolTable

/-- A request to register a symbol. -/
inductive Call
  | insert (s : Symbol)
  | define (s : Symbol) (value : Word) (home : Option SectionId) (file : Option FileId)

/-- The symbol that a call registers. -/
def Call.symbol : Call → Symbol
  | .insert s => s
  | .define s value home file => { s with value := value, home := home, file := file }

/-- The identifier that a call is about. -/
def Call.identifier (call : Call) : String := call.symbol.identifier

/-- The id that a call gives, and the table after it. -/
def answer (t : SymbolTable) : Call → SymbolId × SymbolTable
  | .insert s => t.insert s
  | .define s value home file => t.define s value home file

/-- The table after calls, one after the other. -/
def afterCalls (t : SymbolTable) (calls : List Call) : SymbolTable :=
  calls.foldl (fun t call => (t.answer call).2) t

variable {t : SymbolTable} {identifier : String} {id : SymbolId}

theorem answer_eq_insert (t : SymbolTable) (call : Call) :
    t.answer call = t.insert call.symbol := by
  cases call <;> rfl

theorem afterCalls_cons (t : SymbolTable) (call : Call) (calls : List Call) :
    t.afterCalls (call :: calls) = (t.answer call).2.afterCalls calls := rfl

theorem afterCalls_append (t : SymbolTable) (a b : List Call) :
    t.afterCalls (a ++ b) = (t.afterCalls a).afterCalls b :=
  List.foldl_append

/-! ## Ids -/

/-- An identifier that has an id keeps it. -/
theorem idOf?_insert_of_eq_some (h : t.idOf? identifier = some id) (s : Symbol) :
    (t.insert s).2.idOf? identifier = some id := by
  by_cases heq : identifier = s.identifier
  · subst heq
    rw [idOf?_insert_self, insert_of_some h]
  · rw [idOf?_insert_ne heq, h]

theorem idOf?_afterCalls (h : t.idOf? identifier = some id) (calls : List Call) :
    (t.afterCalls calls).idOf? identifier = some id := by
  induction calls generalizing t with
  | nil => exact h
  | cons call calls ih =>
    rw [afterCalls_cons, answer_eq_insert]
    exact ih (idOf?_insert_of_eq_some h call.symbol)

/-- Where no identifier comes twice, an id belongs to the identifier that its symbol has. -/
theorem idOf?_eq_some_iff (hdistinct : t.identifiers.Nodup) :
    t.idOf? identifier = some id ↔
      ∃ h : id < t.symbols.length, t.symbols[id].identifier = identifier := by
  constructor
  · intro h
    obtain ⟨s, hs, hname⟩ := exists_get?_of_idOf? h
    obtain ⟨hlt, rfl⟩ := List.getElem?_eq_some_iff.1 hs
    exact ⟨hlt, hname⟩
  · rintro ⟨hlt, rfl⟩
    have hlt' : id < t.identifiers.length := by rwa [identifiers, List.length_map]
    have hname : t.identifiers[id] = t.symbols[id].identifier := List.getElem_map _
    rw [idOf?_eq_findIdx?, List.findIdx?_eq_some_iff_getElem]
    refine ⟨hlt', by simp [hname], fun j hj => ?_⟩
    rw [← hname, beq_iff_eq, hdistinct.getElem_inj_iff]
    exact Nat.ne_of_lt hj

/-! ## What a table records -/

theorem identifiers_insert (t : SymbolTable) (s : Symbol) :
    (t.insert s).2.identifiers =
      if s.identifier ∈ t.identifiers then t.identifiers else t.identifiers ++ [s.identifier] := by
  split
  next hknown =>
    obtain ⟨id, h⟩ := Option.ne_none_iff_exists'.1 (mt idOf?_eq_none_iff.1 (not_not_intro hknown))
    rw [insert_of_some h, identifiers_set h]
  next hnew =>
    rw [insert_of_none (idOf?_eq_none_iff.2 hnew)]
    simp [identifiers]

theorem find?_insert (t : SymbolTable) (s : Symbol) (identifier : String) :
    (t.insert s).2.find? identifier =
      if s.identifier = identifier then some s else t.find? identifier := by
  split
  next heq => rw [← heq, find?_insert_self]
  next hne => exact find?_insert_ne (Ne.symm hne)

/-- A name behind others comes last if it is new, and changes nothing if it is not. -/
theorem eraseDups_concat (names : List String) (name : String) :
    (names ++ [name]).eraseDups =
      if name ∈ names then names.eraseDups else names.eraseDups ++ [name] := by
  rw [List.eraseDups_append]
  split
  next hmem =>
    have hnone : [name].removeAll names = [] := by simp [List.removeAll, hmem]
    rw [hnone, List.eraseDups_nil, List.append_nil]
  next hnew =>
    have hone : [name].removeAll names = [name] := by simp [List.removeAll, hnew]
    rw [hone]
    rfl

/-- The table is what these calls make of an empty one. -/
structure Records (t : SymbolTable) (calls : List Call) : Prop where
  distinct : t.identifiers.Nodup
  order : t.identifiers = (calls.map Call.identifier).eraseDups
  latest : ∀ identifier,
    t.find? identifier = (calls.map Call.symbol).reverse.find? (·.identifier == identifier)

theorem records_empty : empty.Records [] := ⟨.nil, rfl, fun _ => rfl⟩

/-- One more call leaves the table of one more call: a new name comes last, and a known one changes
in its place. -/
theorem Records.step {calls : List Call} (h : t.Records calls) (call : Call) :
    (t.answer call).2.Records (calls ++ [call]) := by
  rw [answer_eq_insert]
  refine ⟨?_, ?_, fun identifier => ?_⟩
  · rw [identifiers_insert]
    split
    next => exact h.distinct
    next hnew => exact List.concat_eq_append ▸ h.distinct.concat hnew
  · have hknown :
        call.identifier ∈ t.identifiers ↔ call.identifier ∈ calls.map Call.identifier := by
      rw [h.order, List.mem_eraseDups]
    rw [identifiers_insert, List.map_append, List.map_singleton, eraseDups_concat, ← h.order]
    exact if_congr hknown rfl rfl
  · -- the last call comes first in a search from the end
    rw [find?_insert, List.map_append, List.reverse_append, List.map_singleton,
      List.reverse_singleton, List.singleton_append]
    split
    next heq => rw [List.find?_cons_of_pos (by simpa using heq)]
    next hne => rw [List.find?_cons_of_neg (by simpa using hne), h.latest]

theorem Records.afterCalls {calls : List Call} (h : t.Records calls) (more : List Call) :
    (t.afterCalls more).Records (calls ++ more) := by
  induction more generalizing t calls with
  | nil => rwa [List.append_nil]
  | cons call more ih =>
    rw [afterCalls_cons, List.append_cons]
    exact ih (h.step call)

theorem records_afterCalls (calls : List Call) : (empty.afterCalls calls).Records calls :=
  records_empty.afterCalls calls

end SymbolTable

/-! ## The index -/

/-- Symbols by position, and the position of each identifier. -/
structure IndexedTable where
  symbols : List Symbol
  ids : Std.HashMap String SymbolId

namespace IndexedTable

def empty : IndexedTable := ⟨[], ∅⟩

/-- The symbol with this identifier. It is a fault if the index leads to none. -/
def find (x : IndexedTable) (identifier : String) : Option (Option Symbol) :=
  match x.ids[identifier]? with
  | some id => x.symbols[id]?.map some
  | none => some none

/-- Registers a symbol in place of any previous one with its identifier. It is a fault if the index
leads to none. -/
def insert (x : IndexedTable) (s : Symbol) : Option (SymbolId × IndexedTable) :=
  match x.ids[s.identifier]? with
  | some id =>
    if id < x.symbols.length then some (id, { x with symbols := x.symbols.set id s }) else none
  | none =>
    some (x.symbols.length, ⟨x.symbols ++ [s], x.ids.insert s.identifier x.symbols.length⟩)

/-- The table after calls, unless there is a fault. -/
def afterCalls (x : IndexedTable) (calls : List SymbolTable.Call) : Option IndexedTable :=
  calls.foldlM (fun x call => (x.insert call.symbol).map Prod.snd) x

/-- The index of a table answers as a search through its symbols does. -/
structure Represents (x : IndexedTable) (t : SymbolTable) : Prop where
  symbols : x.symbols = t.symbols
  ids : ∀ identifier, x.ids[identifier]? = t.idOf? identifier

variable {x : IndexedTable} {t : SymbolTable}

theorem represents_empty : empty.Represents .empty := ⟨rfl, fun _ => Std.HashMap.getElem?_empty⟩

theorem Represents.find (h : x.Represents t) (identifier : String) :
    x.find identifier = some (t.find? identifier) := by
  rw [IndexedTable.find, SymbolTable.find?, h.ids]
  cases hid : t.idOf? identifier with
  | none => rfl
  | some id =>
    obtain ⟨s, hs, -⟩ := SymbolTable.exists_get?_of_idOf? hid
    have hs' : x.symbols[id]? = some s := h.symbols ▸ hs
    simp [hs, hs']

/-- There is no fault in one call, and it gives the same id. -/
theorem Represents.insert (h : x.Represents t) (s : Symbol) :
    ∃ y, x.insert s = some ((t.insert s).1, y) ∧ y.Represents (t.insert s).2 := by
  rw [IndexedTable.insert, h.ids, h.symbols]
  cases hid : t.idOf? s.identifier with
  | some id =>
    obtain ⟨old, hold, -⟩ := SymbolTable.exists_get?_of_idOf? hid
    obtain ⟨hlt, -⟩ := List.getElem?_eq_some_iff.1 hold
    rw [SymbolTable.insert_of_some hid]
    refine ⟨_, if_pos hlt, rfl, fun identifier => ?_⟩
    -- the index is not written here, and the search finds what it found
    rw [SymbolTable.idOf?_set hid]
    exact h.ids identifier
  | none =>
    refine ⟨_, by rw [SymbolTable.insert_of_none hid], ?_, fun identifier => ?_⟩
    · rw [SymbolTable.insert_of_none hid]
    · rw [SymbolTable.idOf?_insert_of_none hid, Std.HashMap.getElem?_insert, h.ids]
      exact if_congr (by rw [beq_iff_eq, eq_comm]) rfl rfl

theorem Represents.afterCalls (h : x.Represents t) (calls : List SymbolTable.Call) :
    ∃ y, x.afterCalls calls = some y ∧ y.Represents (t.afterCalls calls) := by
  induction calls generalizing x t with
  | nil => exact ⟨x, rfl, h⟩
  | cons call calls ih =>
    obtain ⟨y, hy, hrepresents⟩ := h.insert call.symbol
    rw [SymbolTable.afterCalls_cons, SymbolTable.answer_eq_insert]
    obtain ⟨z, hz, hrest⟩ := ih hrepresents
    refine ⟨z, ?_, hrest⟩
    rw [IndexedTable.afterCalls, List.foldlM_cons, hy]
    exact hz

end IndexedTable

namespace SymbolTable

/-- After any insertions and definitions in an empty table, the index and the symbols agree: an
identifier has the id under which the symbol with that identifier stands, and no identifier comes
twice. So a table that relies on its index has no fault and answers every call and every look-up
alike. The id that a call gives is that of its identifier from then on, whatever calls follow. The
identifiers stand in the order in which they first came, and a look-up gives the symbol of the last
call for the identifier, which for a definition has the value and the place given with it. -/
theorem afterCalls_isFaithful (calls : List Call) :
    let t := empty.afterCalls calls
    (∃ x, IndexedTable.empty.afterCalls calls = some x ∧ x.symbols = t.symbols ∧
      (∀ identifier id, x.ids[identifier]? = some id ↔
        ∃ h : id < x.symbols.length, x.symbols[id].identifier = identifier) ∧
      (∀ identifier, x.ids[identifier]? = t.idOf? identifier ∧
        x.find identifier = some (t.find? identifier)) ∧
      ∀ call : Call, (x.insert call.symbol).map Prod.fst = some (t.answer call).1) ∧
    (∀ identifier id, t.idOf? identifier = some id ↔
      ∃ h : id < t.symbols.length, t.symbols[id].identifier = identifier) ∧
    t.identifiers.Nodup ∧
    (∀ identifier id, t.idOf? identifier = some id →
      ∀ more, (empty.afterCalls (calls ++ more)).idOf? identifier = some id) ∧
    (∀ call more, ∃ s,
      (empty.afterCalls (calls ++ call :: more)).idOf? call.identifier = some (t.answer call).1 ∧
      (empty.afterCalls (calls ++ call :: more)).get? (t.answer call).1 = some s ∧
      s.identifier = call.identifier) ∧
    t.identifiers = (calls.map Call.identifier).eraseDups ∧
    ∀ identifier, t.find? identifier =
      (calls.map Call.symbol).reverse.find? (·.identifier == identifier) := by
  intro t
  obtain ⟨hdistinct, horder, hlatest⟩ : t.Records calls := records_afterCalls calls
  obtain ⟨x, hx, hrepresents⟩ := IndexedTable.represents_empty.afterCalls calls
  have hagree (identifier id) : t.idOf? identifier = some id ↔
      ∃ h : id < t.symbols.length, t.symbols[id].identifier = identifier :=
    idOf?_eq_some_iff hdistinct
  refine ⟨⟨x, hx, hrepresents.symbols, fun identifier id => ?_, fun identifier => ?_,
    fun call => ?_⟩, hagree, hdistinct, fun identifier id hid more => ?_, fun call more => ?_,
    horder, hlatest⟩
  · rw [hrepresents.ids, hagree]
    simp only [hrepresents.symbols, t]
  · exact ⟨hrepresents.ids identifier, hrepresents.find identifier⟩
  · obtain ⟨y, hy, -⟩ := hrepresents.insert call.symbol
    rw [hy, answer_eq_insert]
    rfl
  · rw [afterCalls_append]
    exact idOf?_afterCalls hid more
  · have hid : (empty.afterCalls (calls ++ call :: more)).idOf? call.identifier =
        some (t.answer call).1 := by
      rw [afterCalls_append, afterCalls_cons]
      apply idOf?_afterCalls
      rw [answer_eq_insert]
      exact idOf?_insert_self _ _
    obtain ⟨s, hs, hname⟩ := exists_get?_of_idOf? hid
    exact ⟨s, hid, hs, hname⟩

/-- A symbol that is defined twice, with others in between. -/
def definedTwice : List Call :=
  [.define (.declare "loop" .internal) 1 (some 0) none, .insert (.absolute "limit" 14),
    .define (.declare "start" .exported) 2 (some 0) none,
    .define (.declare "loop" .internal) 9 (some 1) (some 3)]

/-- The second definition changes the symbol, and no id. -/
theorem afterCalls_isFaithful_definedTwice :
    (empty.afterCalls definedTwice).idOf? "loop" = some 0 ∧
      (∀ more, (empty.afterCalls (definedTwice ++ more)).idOf? "loop" = some 0) ∧
      (empty.afterCalls definedTwice).identifiers = ["loop", "limit", "start"] ∧
      (empty.afterCalls definedTwice).find? "loop" =
        some ⟨"loop", .internal, some 1, some 3, false, 9, 0⟩ := by
  obtain ⟨-, -, -, hkept, -, horder, hlatest⟩ := afterCalls_isFaithful definedTwice
  have hid : (empty.afterCalls definedTwice).idOf? "loop" = some 0 := by decide
  exact ⟨hid, hkept "loop" 0 hid, horder.trans (by decide), (hlatest "loop").trans (by decide)⟩

end SymbolTable

end Assembler
