import Assembler.SymbolTable

/-!
# Looking up what was inserted

A look-up by identifier depends on the identifiers of the table only, in their order. An insertion
keeps these or adds one after them, so that it changes the look-up of its own identifier alone.

* `find?_insert_self`, `find?_insert_ne`: what a table holds after an insertion.
* `idOf?_insert_ne`: every other identifier keeps its id.
-/

namespace Assembler

namespace SymbolTable

/-- The identifiers of a table, by id. -/
def identifiers (t : SymbolTable) : List String := t.symbols.map Symbol.identifier

theorem idOf?_eq_findIdx? (t : SymbolTable) (identifier : String) :
    t.idOf? identifier = t.identifiers.findIdx? (· == identifier) := by
  rw [identifiers, List.findIdx?_map]
  rfl

theorem idOf?_eq_none_iff {t : SymbolTable} {identifier : String} :
    t.idOf? identifier = none ↔ identifier ∉ t.identifiers := by
  rw [idOf?_eq_findIdx?, List.findIdx?_eq_none_iff]
  constructor
  · intro h hmem
    simpa using h identifier hmem
  · intro h name hname
    simp only [beq_eq_false_iff_ne, ne_eq]
    rintro rfl
    exact h hname

/-- An id that a look-up gives is that of a symbol with the identifier. -/
theorem exists_get?_of_idOf? {t : SymbolTable} {identifier : String} {id : SymbolId}
    (h : t.idOf? identifier = some id) :
    ∃ s, t.get? id = some s ∧ s.identifier = identifier := by
  obtain ⟨hid, hname, -⟩ := List.findIdx?_eq_some_iff_getElem.1 h
  exact ⟨t.symbols[id], List.getElem?_eq_getElem hid, by simpa using hname⟩

theorem find?_eq_none_iff {t : SymbolTable} {identifier : String} :
    t.find? identifier = none ↔ t.idOf? identifier = none := by
  unfold find?
  cases h : t.idOf? identifier with
  | none => simp
  | some id =>
    obtain ⟨s, hs, -⟩ := exists_get?_of_idOf? h
    simp [hs]

/-! ## Insertion -/

theorem insert_of_some {t : SymbolTable} {s : Symbol} {id : SymbolId}
    (h : t.idOf? s.identifier = some id) : t.insert s = (id, ⟨t.symbols.set id s⟩) := by
  simp [insert, h]

theorem insert_of_none {t : SymbolTable} {s : Symbol} (h : t.idOf? s.identifier = none) :
    t.insert s = (t.symbols.length, ⟨t.symbols ++ [s]⟩) := by
  simp [insert, h]

/-- A symbol that replaces one of its name leaves the identifiers as they are. -/
theorem identifiers_set {t : SymbolTable} {s : Symbol} {id : SymbolId}
    (h : t.idOf? s.identifier = some id) :
    identifiers ⟨t.symbols.set id s⟩ = t.identifiers := by
  obtain ⟨old, hold, hname⟩ := exists_get?_of_idOf? h
  obtain ⟨hid, rfl⟩ := List.getElem?_eq_some_iff.1 hold
  apply List.ext_getElem?
  intro j
  simp only [identifiers, List.getElem?_map, List.getElem?_set]
  split
  next hj =>
    subst hj
    simp [hid, hname]
  next => rfl

theorem idOf?_set {t : SymbolTable} {s : Symbol} {id : SymbolId}
    (h : t.idOf? s.identifier = some id) (identifier : String) :
    idOf? ⟨t.symbols.set id s⟩ identifier = t.idOf? identifier := by
  rw [idOf?_eq_findIdx?, identifiers_set h, ← idOf?_eq_findIdx?]

/-- A symbol under a free identifier comes after the others. -/
theorem get?_insert_of_none {t : SymbolTable} {s : Symbol} (h : t.idOf? s.identifier = none)
    (j : Nat) : (t.insert s).2.get? j = if j = t.symbols.length then some s else t.get? j := by
  rw [insert_of_none h]
  simp only [get?]
  rcases Nat.lt_trichotomy j t.symbols.length with hj | rfl | hj
  · rw [List.getElem?_append_left hj, if_neg (by omega)]
  · simp
  · rw [if_neg (by omega), List.getElem?_eq_none (by simp; omega), List.getElem?_eq_none (by omega)]

/-- The inserted symbol has the id that the insertion gives. -/
theorem idOf?_insert_self (t : SymbolTable) (s : Symbol) :
    (t.insert s).2.idOf? s.identifier = some (t.insert s).1 := by
  cases h : t.idOf? s.identifier with
  | some id =>
    rw [insert_of_some h, idOf?_set h, h]
  | none =>
    have hnone : t.symbols.findIdx? (fun u => u.identifier == s.identifier) = none := h
    rw [insert_of_none h, idOf?, List.findIdx?_append, hnone]
    simp

theorem get?_insert_self (t : SymbolTable) (s : Symbol) :
    (t.insert s).2.get? (t.insert s).1 = some s := by
  cases h : t.idOf? s.identifier with
  | some id =>
    obtain ⟨old, hold, -⟩ := exists_get?_of_idOf? h
    obtain ⟨hid, -⟩ := List.getElem?_eq_some_iff.1 hold
    simp [insert_of_some h, get?, hid]
  | none => simp [insert_of_none h, get?]

/-- A table holds what was inserted last. -/
theorem find?_insert_self (t : SymbolTable) (s : Symbol) :
    (t.insert s).2.find? s.identifier = some s := by
  rw [find?, idOf?_insert_self]
  exact get?_insert_self t s

/-- A table with one more symbol holds that one and others that it held. -/
theorem mem_of_mem_insert {t : SymbolTable} {s u : Symbol} (h : u ∈ (t.insert s).2.symbols) :
    u = s ∨ u ∈ t.symbols := by
  unfold insert at h
  split at h
  · exact (List.mem_or_eq_of_mem_set h).symm
  · simpa [or_comm] using h

/-- Under an id stands the same symbol after an insertion, or the inserted one. -/
theorem get?_insert_cases {t : SymbolTable} {s u : Symbol} {id : SymbolId}
    (h : t.get? id = some u) :
    (t.insert s).2.get? id = some u ∨ (t.insert s).2.get? id = some s := by
  obtain ⟨hlt, -⟩ := List.getElem?_eq_some_iff.1 h
  cases hid : t.idOf? s.identifier with
  | none =>
    rw [get?_insert_of_none hid, if_neg (Nat.ne_of_lt hlt)]
    exact .inl h
  | some other =>
    rw [insert_of_some hid]
    by_cases heq : other = id
    · subst heq
      exact .inr (List.getElem?_set_self hlt)
    · exact .inl ((List.getElem?_set_ne heq).trans h)

/-- An insertion keeps the ids of other identifiers. -/
theorem idOf?_insert_ne {t : SymbolTable} {s : Symbol} {identifier : String}
    (hne : identifier ≠ s.identifier) :
    (t.insert s).2.idOf? identifier = t.idOf? identifier := by
  cases h : t.idOf? s.identifier with
  | some id =>
    rw [insert_of_some h, idOf?_set h]
  | none =>
    rw [insert_of_none h, idOf?, List.findIdx?_append]
    have hlast : [s].findIdx? (fun u => u.identifier == identifier) = none := by
      simp [Ne.symm hne]
    rw [hlast]
    simp [idOf?]

theorem idOf?_insert_of_none {t : SymbolTable} {s : Symbol} (h : t.idOf? s.identifier = none)
    (identifier : String) :
    (t.insert s).2.idOf? identifier =
      if identifier = s.identifier then some t.symbols.length else t.idOf? identifier := by
  split
  next heq => rw [heq, idOf?_insert_self, insert_of_none h]
  next hne => exact idOf?_insert_ne hne

/-- An insertion keeps what the table holds under other identifiers. -/
theorem find?_insert_ne {t : SymbolTable} {s : Symbol} {identifier : String}
    (hne : identifier ≠ s.identifier) :
    (t.insert s).2.find? identifier = t.find? identifier := by
  rw [find?, find?, idOf?_insert_ne hne]
  cases hid : t.idOf? identifier with
  | none => rfl
  | some id =>
    obtain ⟨u, hu, hname⟩ := exists_get?_of_idOf? hid
    obtain ⟨hlt, -⟩ := List.getElem?_eq_some_iff.1 hu
    simp only [Option.bind_some]
    cases h : t.idOf? s.identifier with
    | some other =>
      obtain ⟨old, hold, hother⟩ := exists_get?_of_idOf? h
      have hdiff : other ≠ id := by
        rintro rfl
        rw [hu, Option.some.injEq] at hold
        exact hne (by rw [← hname, hold, hother])
      simp [insert_of_some h, get?, List.getElem?_set_ne hdiff]
    | none => simp [insert_of_none h, get?, List.getElem?_append_left hlt]

end SymbolTable

end Assembler
