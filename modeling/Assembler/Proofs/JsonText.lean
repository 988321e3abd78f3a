import Assembler.Json.Reader
import Assembler.Json.Writer

/-!
# Texts of JSON values

`Json.Spells` is the grammar of the texts that a value can have: white space may stand between
tokens, and a character of a string may be spelled in more than one way. There is no rule for what
is kept as it is written. `Json.NestsWithin` limits how deep arrays and objects are nested.

A value that nests within `maxNesting` is read back from each of its texts (`parse?_of_spellsText`).
The two layouts of the writer are such texts (`spellsText_compact`, `spellsText_pretty`), which is
shown once for every way to lay values out (`IsLayout`).
-/

namespace Assembler

namespace Json

/-! ## The grammar of texts -/

/-- White space alone. -/
def AllBlank (cs : List Char) : Prop := ∀ c ∈ cs, isBlank c

/-- Characters, and how they are spelled between quotes. -/
inductive SpellsChars : List Char → List Char → Prop
  | nil : SpellsChars [] []
  | plain {c : Char} {s cs : List Char} (hquote : c ≠ '"') (hslash : c ≠ '\\')
    (hcontrol : 0x20 ≤ c.toNat) (h : SpellsChars s cs) : SpellsChars (c :: s) (c :: cs)
  | escaped {mark c : Char} {s cs : List Char} (hmark : escaped? mark = some c)
    (h : SpellsChars s cs) : SpellsChars (c :: s) ('\\' :: mark :: cs)
  | unit {a b c d : Char} {unit : Nat} {s cs : List Char} (hunit : hexUnit? a b c d = some unit)
    (hhigh : isHighSurrogate unit = false) (hlow : isLowSurrogate unit = false)
    (h : SpellsChars s cs) :
    SpellsChars (Char.ofNat unit :: s) ('\\' :: 'u' :: a :: b :: c :: d :: cs)
  | pair {a b c d a' b' c' d' : Char} {high low : Nat} {s cs : List Char}
    (hhigh : hexUnit? a b c d = some high) (hlow : hexUnit? a' b' c' d' = some low)
    (hfirst : isHighSurrogate high) (hsecond : isLowSurrogate low) (h : SpellsChars s cs) :
    SpellsChars (ofSurrogates high low :: s)
      ('\\' :: 'u' :: a :: b :: c :: d :: '\\' :: 'u' :: a' :: b' :: c' :: d' :: cs)

/-- A nonempty list, of whose parts `P` gives the texts, with commas between them. -/
inductive SpellsList {α : Type} (P : α → List Char → Prop) : List α → List Char → Prop
  | last {a : α} {own after : List Char} (h : P a own) (hafter : AllBlank after) :
    SpellsList P [a] (own ++ after)
  | cons {a : α} {own after before more : List Char} {l : List α} (h : P a own)
    (hafter : AllBlank after) (hbefore : AllBlank before) (rest : SpellsList P l more) :
    SpellsList P (a :: l) (own ++ (after ++ ',' :: (before ++ more)))

/-- A member of an object, of whose value `P` gives the texts. -/
inductive SpellsMember (P : Json → List Char → Prop) : String × Json → List Char → Prop
  | mk {key : String} {j : Json} {name after before own : List Char}
    (hkey : SpellsChars key.toList name) (hafter : AllBlank after) (hbefore : AllBlank before)
    (h : P j own) :
    SpellsMember P (key, j) ('"' :: (name ++ '"' :: (after ++ ':' :: (before ++ own))))

/-- A value and a text of it, without white space around it. -/
inductive Spells : Json → List Char → Prop
  | null : Spells .null ['n', 'u', 'l', 'l']
  | boolTrue : Spells (.bool true) ['t', 'r', 'u', 'e']
  | boolFalse : Spells (.bool false) ['f', 'a', 'l', 's', 'e']
  | integer (negative : Bool) (magnitude : Nat) :
    Spells (.integer negative magnitude) (integerText negative magnitude).toList
  | string {s : String} {cs : List Char} (h : SpellsChars s.toList cs) :
    Spells (.string s) ('"' :: (cs ++ ['"']))
  | emptyArray {before : List Char} (hbefore : AllBlank before) :
    Spells (.array []) ('[' :: (before ++ [']']))
  | array {items : List Json} {before cs : List Char} (hbefore : AllBlank before)
    (h : SpellsList Spells items cs) : Spells (.array items) ('[' :: (before ++ (cs ++ [']'])))
  | emptyObject {before : List Char} (hbefore : AllBlank before) :
    Spells (.object []) ('\x7b' :: (before ++ ['\x7d']))
  | object {members : List (String × Json)} {before cs : List Char} (hbefore : AllBlank before)
    (h : SpellsList (SpellsMember Spells) members cs) :
    Spells (.object members) ('\x7b' :: (before ++ (cs ++ ['\x7d'])))

/-- A value and a text of it, with white space around it. -/
def SpellsText (j : Json) (text : String) : Prop :=
  ∃ before own after, AllBlank before ∧ AllBlank after ∧ j.Spells own ∧
    text.toList = before ++ (own ++ after)

/-- Arrays and objects are nested at most `n` deep, and nothing is kept as it is written. -/
inductive NestsWithin : Nat → Json → Prop
  | null {n : Nat} : NestsWithin n .null
  | bool {n : Nat} (b : Bool) : NestsWithin n (.bool b)
  | integer {n : Nat} (negative : Bool) (magnitude : Nat) :
    NestsWithin n (.integer negative magnitude)
  | string {n : Nat} (s : String) : NestsWithin n (.string s)
  | array {n : Nat} {items : List Json} (h : ∀ j ∈ items, NestsWithin n j) :
    NestsWithin (n + 1) (.array items)
  | object {n : Nat} {members : List (String × Json)} (h : ∀ m ∈ members, NestsWithin n m.2) :
    NestsWithin (n + 1) (.object members)

section NestsWithin

variable {n : Nat}

@[simp]
theorem nestsWithin_integer (negative : Bool) (magnitude : Nat) :
    NestsWithin n (.integer negative magnitude) := .integer negative magnitude

@[simp]
theorem nestsWithin_string (s : String) : NestsWithin n (.string s) := .string s

@[simp]
theorem nestsWithin_array {items : List Json} :
    NestsWithin (n + 1) (.array items) ↔ ∀ j ∈ items, NestsWithin n j := by
  refine ⟨fun h => ?_, .array⟩
  cases h with | array h => exact h

@[simp]
theorem nestsWithin_object {members : List (String × Json)} :
    NestsWithin (n + 1) (.object members) ↔ ∀ m ∈ members, NestsWithin n m.2 := by
  refine ⟨fun h => ?_, .object⟩
  cases h with | object h => exact h

end NestsWithin

/-- Room for more nesting does no harm. -/
theorem NestsWithin.mono {n m : Nat} {j : Json} (h : NestsWithin n j) (hle : n ≤ m) :
    NestsWithin m j := by
  induction h generalizing m with
  | null => exact .null
  | bool b => exact .bool b
  | integer negative magnitude => exact .integer negative magnitude
  | string s => exact .string s
  | array _ ih =>
    obtain ⟨m, rfl⟩ := Nat.exists_eq_add_one.2 (Nat.lt_of_lt_of_le (Nat.succ_pos _) hle)
    exact .array fun j hj => ih j hj (Nat.le_of_succ_le_succ hle)
  | object _ ih =>
    obtain ⟨m, rfl⟩ := Nat.exists_eq_add_one.2 (Nat.lt_of_lt_of_le (Nat.succ_pos _) hle)
    exact .object fun m hm => ih m hm (Nat.le_of_succ_le_succ hle)

/-- Nothing in the value is kept as it is written. -/
def IsSpelledOut (j : Json) : Prop := ∃ n, NestsWithin n j

section IsSpelledOut

/-- One depth is enough for the parts of a list. -/
theorem exists_nestsWithin_of_forall {α : Type} {part : α → Json} {l : List α}
    (h : ∀ a ∈ l, (part a).IsSpelledOut) : ∃ n, ∀ a ∈ l, NestsWithin n (part a) := by
  induction l with
  | nil => exact ⟨0, nofun⟩
  | cons a l ih =>
    obtain ⟨n, hn⟩ := h a List.mem_cons_self
    obtain ⟨m, hm⟩ := ih fun b hb => h b (List.mem_cons_of_mem a hb)
    refine ⟨max n m, List.forall_mem_cons.2 ⟨hn.mono (Nat.le_max_left n m), fun b hb => ?_⟩⟩
    exact (hm b hb).mono (Nat.le_max_right n m)

@[simp]
theorem isSpelledOut_null : IsSpelledOut .null := ⟨0, .null⟩

@[simp]
theorem isSpelledOut_bool (b : Bool) : IsSpelledOut (.bool b) := ⟨0, .bool b⟩

@[simp]
theorem isSpelledOut_integer (negative : Bool) (magnitude : Nat) :
    IsSpelledOut (.integer negative magnitude) := ⟨0, .integer negative magnitude⟩

@[simp]
theorem isSpelledOut_string (s : String) : IsSpelledOut (.string s) := ⟨0, .string s⟩

@[simp]
theorem isSpelledOut_array {items : List Json} :
    IsSpelledOut (.array items) ↔ ∀ j ∈ items, j.IsSpelledOut := by
  constructor
  · rintro ⟨_, h⟩ j hj
    cases h with | array h => exact ⟨_, h j hj⟩
  · intro h
    obtain ⟨n, hn⟩ : ∃ n, ∀ j ∈ items, NestsWithin n (id j) := exists_nestsWithin_of_forall h
    exact ⟨n + 1, .array hn⟩

@[simp]
theorem isSpelledOut_object {members : List (String × Json)} :
    IsSpelledOut (.object members) ↔ ∀ m ∈ members, m.2.IsSpelledOut := by
  constructor
  · rintro ⟨_, h⟩ m hm
    cases h with | object h => exact ⟨_, h m hm⟩
  · intro h
    obtain ⟨n, hn⟩ := exists_nestsWithin_of_forall h
    exact ⟨n + 1, .object hn⟩

end IsSpelledOut

/-! ## White space -/

theorem AllBlank.nil : AllBlank [] := nofun

/-- White space ends at the first character that is none. -/
theorem skip_append {before : List Char} (h : AllBlank before) {c : Char} (hc : isBlank c = false)
    (cs : List Char) : skip (before ++ c :: cs) = c :: cs := by
  rw [skip, List.dropWhile_append_of_pos h, List.dropWhile_cons_of_neg (by simp [hc])]

theorem skip_of_allBlank {cs : List Char} (h : AllBlank cs) : skip cs = [] := by
  rw [skip, ← List.append_nil cs, List.dropWhile_append_of_pos h, List.dropWhile_nil]

/-! ## Strings -/

theorem stringRest?_plain {c : Char} (hquote : c ≠ '"') (hslash : c ≠ '\\')
    (hcontrol : 0x20 ≤ c.toNat) (read : Option (List Char)) (cs : List Char) :
    stringRest? read (c :: cs) = stringRest? (read.map (c :: ·)) cs := by
  rw [stringRest?]
  · exact if_neg (Nat.not_lt.2 hcontrol)
  · exact hquote
  · rintro a b c' d rest rfl
    exact absurd rfl hslash
  · rintro c' rest rfl
    exact absurd rfl hslash

theorem stringRest?_escaped {mark c : Char} (hmark : escaped? mark = some c)
    (read : Option (List Char)) (cs : List Char) :
    stringRest? read ('\\' :: mark :: cs) = stringRest? (read.map (c :: ·)) cs := by
  rw [stringRest?, hmark]
  rintro a b c' d rest rfl
  cases hmark

theorem stringRest?_unit {a b c d : Char} {unit : Nat} (hunit : hexUnit? a b c d = some unit)
    (hhigh : isHighSurrogate unit = false) (hlow : isLowSurrogate unit = false)
    (read : Option (List Char)) (cs : List Char) :
    stringRest? read ('\\' :: 'u' :: a :: b :: c :: d :: cs) =
      stringRest? (read.map (Char.ofNat unit :: ·)) cs := by
  rw [stringRest?, hunit]
  simp [hhigh, hlow]

theorem stringRest?_pair {a b c d a' b' c' d' : Char} {high low : Nat}
    (hhigh : hexUnit? a b c d = some high) (hlow : hexUnit? a' b' c' d' = some low)
    (hfirst : isHighSurrogate high) (hsecond : isLowSurrogate low) (read : Option (List Char))
    (cs : List Char) :
    stringRest? read
        ('\\' :: 'u' :: a :: b :: c :: d :: '\\' :: 'u' :: a' :: b' :: c' :: d' :: cs) =
      stringRest? (read.map (ofSurrogates high low :: ·)) cs := by
  rw [stringRest?, hhigh]
  simp [hfirst, hsecond, hlow]

/-- What is spelled up to a quote is read up to the quote. -/
theorem stringRest?_of_spellsChars {s cs : List Char} (h : SpellsChars s cs)
    (read rest : List Char) :
    stringRest? (some read) (cs ++ '"' :: rest) =
      some (some (String.ofList (read.reverse ++ s)), rest) := by
  induction h generalizing read with
  | nil => simp [stringRest?]
  | plain hquote hslash hcontrol _ ih =>
    rw [List.cons_append, stringRest?_plain hquote hslash hcontrol, Option.map_some, ih]
    simp
  | escaped hmark _ ih =>
    rw [List.cons_append, List.cons_append, stringRest?_escaped hmark, Option.map_some, ih]
    simp
  | unit hunit hhigh hlow _ ih =>
    simp only [List.cons_append]
    rw [stringRest?_unit hunit hhigh hlow, Option.map_some, ih]
    simp
  | pair hhigh hlow hfirst hsecond _ ih =>
    simp only [List.cons_append]
    rw [stringRest?_pair hhigh hlow hfirst hsecond, Option.map_some, ih]
    simp

/-! ## Numbers -/

/-- What can stand behind a number without being a part of it. -/
def EndsNumber (rest : List Char) : Prop :=
  ∀ c ∈ rest.head?, c.isDigit = false ∧ c ≠ '.' ∧ c ≠ 'e' ∧ c ≠ 'E'

theorem endsNumber_nil : EndsNumber [] := nofun

theorem endsNumber_cons {c : Char} (h : c.isDigit = false ∧ c ≠ '.' ∧ c ≠ 'e' ∧ c ≠ 'E')
    (rest : List Char) : EndsNumber (c :: rest) := by
  intro d hd
  cases hd
  exact h

theorem AllBlank.endsNumber {after rest : List Char} (h : AllBlank after)
    (hrest : EndsNumber rest) : EndsNumber (after ++ rest) := by
  cases after with
  | nil => exact hrest
  | cons c after =>
    intro d hd
    obtain rfl : c = d := by simpa using hd
    have hc := h c List.mem_cons_self
    simp only [isBlank, Bool.or_eq_true, decide_eq_true_eq] at hc
    rcases hc with ((rfl | rfl) | rfl) | rfl <;> decide

theorem digitsValue_toDigits (n : Nat) : digitsValue (Nat.toDigits 10 n) = n := by
  have hvalue := Nat.ofDigitChars_ten_toDigits (n := n)
  rw [Nat.ofDigitChars_eq_foldl] at hvalue
  simpa only [digitsValue, Nat.mul_comm] using hvalue

/-- Only zero is written with a leading zero. -/
theorem head?_toDigits {n : Nat} (hn : n ≠ 0) : (Nat.toDigits 10 n).head? ≠ some '0' := by
  induction n using Nat.strongRecOn with
  | ind n ih =>
    by_cases hlt : n < 10
    · rw [Nat.toDigits_of_lt_base hlt]
      simpa using hn
    · rw [Nat.toDigits_of_base_le (by decide) (by omega), List.head?_append]
      have hhead := ih (n / 10) (by omega) (by omega)
      cases hd : (Nat.toDigits 10 (n / 10)).head? with
      | none => exact absurd (List.head?_eq_none_iff.1 hd) Nat.toDigits_ne_nil
      | some d => simpa [hd] using hhead

theorem takeWhile_isDigit {n : Nat} {rest : List Char} (h : EndsNumber rest) :
    (Nat.toDigits 10 n ++ rest).takeWhile Char.isDigit = Nat.toDigits 10 n := by
  rw [List.takeWhile_append_of_pos fun c hc =>
    Nat.isDigit_of_mem_toDigits (by decide) (by decide) hc]
  cases rest with
  | nil => simp
  | cons c rest => simp [(h c rfl).1]

/-- The digits of a number are its integer part, up to what ends the number. -/
theorem integerPart?_toDigits {n : Nat} {rest : List Char} (h : EndsNumber rest) :
    integerPart? (Nat.toDigits 10 n ++ rest) = some (Nat.toDigits 10 n, rest) := by
  rw [integerPart?, takeWhile_isDigit h]
  by_cases hn : n = 0
  · subst hn
    rfl
  · have hhead := head?_toDigits hn
    split
    next heq => exact absurd heq Nat.toDigits_ne_nil
    next heq => simp [heq] at hhead
    next heq => simp [heq] at hhead
    next => simp

theorem fraction?_of_endsNumber {rest : List Char} (h : EndsNumber rest) :
    fraction? rest = some ([], rest) := by
  unfold fraction?
  split
  next => exact absurd rfl (h '.' rfl).2.1
  next => rfl

theorem exponent?_of_endsNumber {rest : List Char} (h : EndsNumber rest) :
    exponent? rest = some ([], rest) := by
  unfold exponent?
  split
  next c cs => exact if_neg (not_or.2 (h c rfl).2.2)
  next => rfl

theorem toList_integerText (negative : Bool) (magnitude : Nat) :
    (integerText negative magnitude).toList =
      (if negative then ['-'] else []) ++ Nat.toDigits 10 magnitude := by
  cases negative <;> simp [integerText]

/-- Digits have a first one. -/
theorem exists_toDigits_eq_cons (n : Nat) :
    ∃ d ds, Nat.toDigits 10 n = d :: ds ∧ d.isDigit := by
  cases h : Nat.toDigits 10 n with
  | nil => exact absurd h Nat.toDigits_ne_nil
  | cons d ds =>
    refine ⟨d, ds, rfl, ?_⟩
    exact Nat.isDigit_of_mem_toDigits (by decide) (by decide) (h ▸ List.mem_cons_self)

/-- The sign of a number is told apart from its digits. -/
theorem minusSign_integerText (negative : Bool) (magnitude : Nat) (rest : List Char) :
    minusSign ((integerText negative magnitude).toList ++ rest) =
      (negative, Nat.toDigits 10 magnitude ++ rest) := by
  rw [toList_integerText]
  cases negative with
  | true => rfl
  | false =>
    obtain ⟨d, ds, hd, hdigit⟩ := exists_toDigits_eq_cons magnitude
    have hsign : d ≠ '-' := by
      rintro rfl
      cases hdigit
    rw [hd]
    exact minusSign.eq_2 _ fun cs heq => hsign (List.cons.inj heq).1

/-- A whole number is read up to what ends it. -/
theorem number?_of_endsNumber (negative : Bool) (magnitude : Nat) {rest : List Char}
    (h : EndsNumber rest) :
    number? ((integerText negative magnitude).toList ++ rest) =
      some (.integer negative magnitude, rest) := by
  simp [number?, minusSign_integerText, integerPart?_toDigits h, fraction?_of_endsNumber h,
    exponent?_of_endsNumber h, digitsValue_toDigits]

/-- A sign or a digit. -/
def StartsNumber (c : Char) : Prop := c = '-' ∨ c.isDigit

instance (c : Char) : Decidable (StartsNumber c) :=
  inferInstanceAs (Decidable (c = '-' ∨ c.isDigit))

theorem exists_integerText_eq_cons (negative : Bool) (magnitude : Nat) :
    ∃ c text, (integerText negative magnitude).toList = c :: text ∧ StartsNumber c := by
  rw [toList_integerText]
  cases negative with
  | true => exact ⟨_, _, rfl, .inl rfl⟩
  | false =>
    obtain ⟨d, ds, hd, hdigit⟩ := exists_toDigits_eq_cons magnitude
    exact ⟨d, ds, hd, .inr hdigit⟩

/-! ## Values -/

theorem StartsNumber.isBlank_eq_false {c : Char} (hc : StartsNumber c) : isBlank c = false := by
  refine Bool.eq_false_iff.2 fun hblank => ?_
  simp only [isBlank, Bool.or_eq_true, decide_eq_true_eq] at hblank
  rcases hblank with ((rfl | rfl) | rfl) | rfl <;> exact absurd hc (by decide)

theorem StartsNumber.startsNested_eq_false {c : Char} (hc : StartsNumber c) (text : List Char) :
    startsNested (c :: text) = false := by
  unfold startsNested
  split
  next heq => exact absurd ((List.cons.inj heq).1 ▸ hc) (by decide)
  next heq => exact absurd ((List.cons.inj heq).1 ▸ hc) (by decide)
  next => rfl

/-- A whole number is read as one: no other value starts like it. -/
theorem scalar?_integer (negative : Bool) (magnitude : Nat) {rest : List Char}
    (h : EndsNumber rest) :
    scalar? ((integerText negative magnitude).toList ++ rest) =
      some (.integer negative magnitude, rest) := by
  obtain ⟨c, text, heq, hc⟩ := exists_integerText_eq_cons negative magnitude
  have hnumber := number?_of_endsNumber negative magnitude h
  rw [heq, List.cons_append] at hnumber ⊢
  rw [← hnumber]
  unfold scalar?
  split
  next heq => exact absurd ((List.cons.inj heq).1 ▸ hc) (by decide)
  next heq => exact absurd ((List.cons.inj heq).1 ▸ hc) (by decide)
  next heq => exact absurd ((List.cons.inj heq).1 ▸ hc) (by decide)
  next heq => exact absurd ((List.cons.inj heq).1 ▸ hc) (by decide)
  next => rfl

/-- The first character of a text is no white space and closes nothing. -/
theorem Spells.exists_head {j : Json} {cs : List Char} (h : j.Spells cs) :
    ∃ c text, cs = c :: text ∧ isBlank c = false ∧ c ≠ ']' := by
  cases h with
  | integer negative magnitude =>
    obtain ⟨c, text, heq, hc⟩ := exists_integerText_eq_cons negative magnitude
    refine ⟨c, text, heq, hc.isBlank_eq_false, ?_⟩
    rintro rfl
    exact absurd hc (by decide)
  | _ => exact ⟨_, _, rfl, by decide, by decide⟩

/-- `item` reads the value from its texts of at most `limit` characters. -/
def IsReadBy (item : List Char → Option (Json × List Char)) (limit : Nat) (j : Json) : Prop :=
  ∀ {cs before rest : List Char}, j.Spells cs → cs.length ≤ limit → AllBlank before →
    EndsNumber rest → item (before ++ (cs ++ rest)) = some (j, rest)

section Lists

variable {item : List Char → Option (Json × List Char)} {limit count : Nat} {before cs : List Char}

theorem SpellsList.length_le {α : Type} {P : α → List Char → Prop} {l : List α}
    (h : SpellsList P l cs) : l.length ≤ cs.length + 1 := by
  induction h with
  | last => simp
  | cons h hafter hbefore rest ih =>
    simp only [List.length_cons, List.length_append]
    omega

theorem itemsRest?_item {j : Json} (hj : IsReadBy item limit j) (h : j.Spells cs)
    (hlimit : cs.length ≤ limit) (hbefore : AllBlank before) {rest : List Char}
    (hrest : EndsNumber rest) (read : List Json) :
    itemsRest? item (count + 1) read (before ++ (cs ++ rest)) =
      match skip rest with
      | ',' :: rest => itemsRest? item count (j :: read) rest
      | ']' :: rest => some ((j :: read).reverse, rest)
      | _ => none := by
  rw [itemsRest?, hj h hlimit hbefore hrest]
  rfl

/-- Items are read one after the other, up to the bracket. -/
theorem itemsRest?_of_spells {items : List Json} (h : SpellsList Spells items cs)
    (hitems : ∀ j ∈ items, IsReadBy item limit j) (hlimit : cs.length ≤ limit)
    (hcount : items.length ≤ count) (hbefore : AllBlank before) (read : List Json)
    (rest : List Char) :
    itemsRest? item count read (before ++ (cs ++ ']' :: rest)) =
      some (read.reverse ++ items, rest) := by
  induction h generalizing count before read with
  | @last j own after h hafter =>
    obtain ⟨count, rfl⟩ : ∃ n, count = n + 1 := Nat.exists_eq_add_one.2 hcount
    have hends := hafter.endsNumber (endsNumber_cons (c := ']') (by decide) rest)
    rw [List.length_append] at hlimit
    rw [List.append_assoc, itemsRest?_item (hitems j List.mem_cons_self) h (by omega) hbefore hends,
      skip_append hafter rfl]
    simp
  | @cons j own after between more items h hafter hbetween tail ih =>
    obtain ⟨count, rfl⟩ : ∃ n, count = n + 1 :=
      Nat.exists_eq_add_one.2 (Nat.lt_of_lt_of_le (Nat.succ_pos _) hcount)
    have hends := hafter.endsNumber
      (endsNumber_cons (c := ',') (by decide) (between ++ (more ++ ']' :: rest)))
    simp only [List.length_append, List.length_cons] at hlimit hcount
    simp only [List.append_assoc, List.cons_append]
    rw [itemsRest?_item (hitems j List.mem_cons_self) h (by omega) hbefore hends,
      skip_append hafter rfl]
    have hmore : itemsRest? item count (j :: read) (between ++ (more ++ ']' :: rest)) =
        some ((j :: read).reverse ++ items, rest) :=
      ih (fun k hk => hitems k (List.mem_cons_of_mem j hk)) (by omega) (by omega) hbetween _
    exact hmore.trans (by simp)

/-- One member is read, and what follows it decides how to go on. -/
theorem membersRest?_member {m : String × Json} (hm : IsReadBy item limit m.2)
    (h : SpellsMember Spells m cs) (hlimit : cs.length ≤ limit) (hbefore : AllBlank before)
    {rest : List Char} (hrest : EndsNumber rest) (read : List (String × Json)) :
    membersRest? item (count + 1) (some read) (before ++ (cs ++ rest)) =
      match skip rest with
      | ',' :: rest => membersRest? item count (some (m :: read)) rest
      | '\x7d' :: rest => some (some (m :: read).reverse, rest)
      | _ => none := by
  obtain ⟨hkey, hcolon, hvalue, h⟩ := h
  simp only [List.length_append, List.length_cons] at hlimit
  have hread := hm h (by omega) hvalue hrest
  simp only [List.append_assoc, List.cons_append]
  rw [membersRest?, skip_append hbefore rfl]
  simp only [stringRest?_of_spellsChars hkey, Option.bind_eq_bind, Option.bind_some,
    skip_append hcolon (show isBlank ':' = false from rfl), hread, List.reverse_nil,
    List.nil_append, String.ofList_toList]
  rfl

/-- Members are read one after the other, up to the brace. -/
theorem membersRest?_of_spells {members : List (String × Json)}
    (h : SpellsList (SpellsMember Spells) members cs)
    (hitems : ∀ m ∈ members, IsReadBy item limit m.2) (hlimit : cs.length ≤ limit)
    (hcount : members.length ≤ count) (hbefore : AllBlank before) (read : List (String × Json))
    (rest : List Char) :
    membersRest? item count (some read) (before ++ (cs ++ '\x7d' :: rest)) =
      some (some (read.reverse ++ members), rest) := by
  induction h generalizing count before read with
  | @last m own after h hafter =>
    obtain ⟨count, rfl⟩ : ∃ n, count = n + 1 := Nat.exists_eq_add_one.2 hcount
    have hends := hafter.endsNumber (endsNumber_cons (c := '\x7d') (by decide) rest)
    rw [List.length_append] at hlimit
    rw [List.append_assoc,
      membersRest?_member (hitems m List.mem_cons_self) h (by omega) hbefore hends,
      skip_append hafter rfl]
    simp
  | @cons m own after between more members h hafter hbetween tail ih =>
    obtain ⟨count, rfl⟩ : ∃ n, count = n + 1 :=
      Nat.exists_eq_add_one.2 (Nat.lt_of_lt_of_le (Nat.succ_pos _) hcount)
    have hends := hafter.endsNumber
      (endsNumber_cons (c := ',') (by decide) (between ++ (more ++ '\x7d' :: rest)))
    simp only [List.length_append, List.length_cons] at hlimit hcount
    simp only [List.append_assoc, List.cons_append]
    rw [membersRest?_member (hitems m List.mem_cons_self) h (by omega) hbefore hends,
      skip_append hafter rfl]
    have hmore : membersRest? item count (some (m :: read)) (between ++ (more ++ '\x7d' :: rest)) =
        some (some ((m :: read).reverse ++ members), rest) :=
      ih (fun k hk => hitems k (List.mem_cons_of_mem m hk)) (by omega) (by omega) hbetween _
    exact hmore.trans (by simp)

end Lists

/-- The first part of a list stands at the start of its text. -/
theorem SpellsList.exists_head {α : Type} {P : α → List Char → Prop} {l : List α} {cs : List Char}
    (h : SpellsList P l cs) {Q : Char → Prop}
    (hP : ∀ a own, P a own → ∃ c text, own = c :: text ∧ Q c) : ∃ c text, cs = c :: text ∧ Q c := by
  cases h with
  | last h =>
    obtain ⟨c, text, rfl, hc⟩ := hP _ _ h
    exact ⟨c, _, rfl, hc⟩
  | cons h =>
    obtain ⟨c, text, rfl, hc⟩ := hP _ _ h
    exact ⟨c, _, rfl, hc⟩

theorem value?_scalar {before : List Char} (hbefore : AllBlank before) {c : Char}
    (hblank : isBlank c = false) {cs : List Char} (hopens : startsNested (c :: cs) = false)
    (bound n : Nat) : value? (bound + 1) n (before ++ c :: cs) = scalar? (c :: cs) := by
  rw [value?, skip_append hbefore hblank]
  simp [hopens]

theorem value?_nested {before : List Char} (hbefore : AllBlank before) {c : Char}
    (hblank : isBlank c = false) {cs rest : List Char} (hopens : startsNested (c :: cs) = true)
    {bound n : Nat} {j : Json} (h : nested? (value? bound n) (c :: cs) = some (some j, rest)) :
    value? (bound + 1) (n + 1) (before ++ c :: cs) = some (j, rest) := by
  rw [value?, skip_append hbefore hblank]
  simp [hopens, h]

theorem Spells.length_pos {j : Json} {cs : List Char} (h : j.Spells cs) : 0 < cs.length := by
  obtain ⟨c, text, rfl, -⟩ := h.exists_head
  exact Nat.succ_pos _

/-- An array is read from its bracket on, if its items are. -/
theorem nested?_array {item : List Char → Option (Json × List Char)} {limit : Nat}
    {items : List Json} {before cs : List Char} (hbefore : AllBlank before)
    (h : SpellsList Spells items cs) (hitems : ∀ j ∈ items, IsReadBy item limit j)
    (hlimit : cs.length ≤ limit) (rest : List Char) :
    nested? item ('[' :: (before ++ (cs ++ ']' :: rest))) = some (some (.array items), rest) := by
  obtain ⟨c, text, rfl, hblank, hc⟩ := h.exists_head fun _ _ => Spells.exists_head
  have hcount : items.length ≤ (c :: text ++ ']' :: rest).length := by
    have hle := h.length_le
    rw [List.length_append, List.length_cons (a := ']')]
    omega
  have hread := itemsRest?_of_spells h hitems hlimit hcount .nil [] rest
  rw [nested?, List.cons_append, skip_append hbefore hblank]
  split
  next heq => exact absurd (List.cons.inj heq).1 hc
  next =>
    rw [List.nil_append, List.cons_append] at hread
    rw [hread]
    rfl

/-- An object is read from its brace on, if the values of its members are. -/
theorem nested?_object {item : List Char → Option (Json × List Char)} {limit : Nat}
    {members : List (String × Json)} {before cs : List Char} (hbefore : AllBlank before)
    (h : SpellsList (SpellsMember Spells) members cs)
    (hitems : ∀ m ∈ members, IsReadBy item limit m.2) (hlimit : cs.length ≤ limit)
    (rest : List Char) :
    nested? item ('\x7b' :: (before ++ (cs ++ '\x7d' :: rest))) =
      some (some (.object members), rest) := by
  obtain ⟨c, text, rfl, rfl⟩ : ∃ c text, cs = c :: text ∧ c = '"' :=
    h.exists_head fun _ _ hm => by
      cases hm
      exact ⟨_, _, rfl, rfl⟩
  have hcount : members.length ≤ ('"' :: text ++ '\x7d' :: rest).length := by
    have hle := h.length_le
    rw [List.length_append, List.length_cons (a := '\x7d')]
    omega
  have hread := membersRest?_of_spells h hitems hlimit hcount .nil [] rest
  rw [nested?, List.cons_append, skip_append hbefore rfl]
  rw [List.nil_append, List.cons_append] at hread
  show (membersRest? item _ _ _ >>= _) = _
  rw [hread]
  rfl

/-- No text is empty, so a reader without a step to take has none to read. -/
theorem isReadBy_of_succ {n : Nat} {j : Json}
    (h : ∀ bound, IsReadBy (value? (bound + 1) n) (bound + 1) j) (bound : Nat) :
    IsReadBy (value? bound n) bound j := by
  cases bound with
  | zero => exact fun hj hlimit => absurd hj.length_pos (Nat.not_lt.2 hlimit)
  | succ bound => exact h bound

/-- A value is read from each of its texts, if it nests as far as can be told apart. -/
theorem value?_isReadBy {n : Nat} {j : Json} (hj : NestsWithin n j) (bound : Nat) :
    IsReadBy (value? (bound + 1) n) (bound + 1) j := by
  induction hj generalizing bound with
  | null =>
    intro cs before rest h hlimit hbefore hrest
    cases h
    exact value?_scalar hbefore rfl rfl bound _
  | bool b =>
    intro cs before rest h hlimit hbefore hrest
    cases h with
    | boolTrue => exact value?_scalar hbefore rfl rfl bound _
    | boolFalse => exact value?_scalar hbefore rfl rfl bound _
  | integer negative magnitude =>
    intro cs before rest h hlimit hbefore hrest
    cases h
    obtain ⟨c, text, heq, hc⟩ := exists_integerText_eq_cons negative magnitude
    have hscalar := scalar?_integer negative magnitude hrest
    rw [heq, List.cons_append] at hscalar ⊢
    rw [value?_scalar hbefore hc.isBlank_eq_false (hc.startsNested_eq_false _), hscalar]
  | string s =>
    intro cs before rest h hlimit hbefore hrest
    cases h with
    | string hs =>
    rw [List.cons_append, value?_scalar hbefore rfl rfl, scalar?, List.append_assoc]
    rw [show ['"'] ++ rest = '"' :: rest from rfl, stringRest?_of_spellsChars hs]
    simp
  | array _ ih =>
    intro cs before rest h hlimit hbefore hrest
    cases h with
    | emptyArray hblank =>
      rw [List.cons_append, List.append_assoc]
      refine value?_nested hbefore rfl rfl ?_
      simp [nested?, skip_append hblank (show isBlank ']' = false from rfl)]
    | array hblank h =>
      simp only [List.length_cons, List.length_append] at hlimit
      simp only [List.cons_append, List.append_assoc]
      exact value?_nested hbefore rfl rfl
        (nested?_array hblank h (fun j hj => isReadBy_of_succ (ih j hj) bound) (by omega) rest)
  | object _ ih =>
    intro cs before rest h hlimit hbefore hrest
    cases h with
    | emptyObject hblank =>
      rw [List.cons_append, List.append_assoc]
      refine value?_nested hbefore rfl rfl ?_
      simp [nested?, skip_append hblank (show isBlank '\x7d' = false from rfl)]
    | object hblank h =>
      simp only [List.length_cons, List.length_append] at hlimit
      simp only [List.cons_append, List.append_assoc]
      exact value?_nested hbefore rfl rfl
        (nested?_object hblank h (fun m hm => isReadBy_of_succ (ih m hm) bound) (by omega) rest)

/-- A text is read as the value that it spells. -/
theorem parse?_of_spellsText {j : Json} {text : String} (h : j.SpellsText text)
    (hj : NestsWithin maxNesting j) : parse? text = some j := by
  obtain ⟨before, own, after, hbefore, hafter, hown, htext⟩ := h
  have hends : EndsNumber after := List.append_nil after ▸ hafter.endsNumber endsNumber_nil
  have hlength : own.length ≤ text.toList.length + 1 := by
    rw [htext]
    simp only [List.length_append]
    omega
  have hread := value?_isReadBy hj _ hown hlength hbefore hends
  rw [← htext] at hread
  simp [parse?, hread, skip_of_allBlank hafter]

/-! ## What is written -/

theorem unicodeEscape_toList {c : Char} (hc : c.toNat < 0x20) :
    (unicodeEscape c).toList =
      ['\\', 'u', '0', '0', (c.toNat / 16).digitChar, (c.toNat % 16).digitChar] := by
  have hdigits : ∀ n < 0x20, List.replicate (4 - (Nat.toDigits 16 n).length) '0' ++
      Nat.toDigits 16 n = ['0', '0', (n / 16).digitChar, (n % 16).digitChar] := by decide +kernel
  simp [unicodeEscape, hexDigits, hdigits _ hc]

/-- The text of a character between quotes spells it. -/
theorem spellsChars_escape (c : Char) {s cs : List Char} (h : SpellsChars s cs) :
    SpellsChars (c :: s) ((escape c).toList ++ cs) := by
  unfold escape
  split
  · exact .escaped rfl h
  · exact .escaped rfl h
  · exact .escaped rfl h
  · exact .escaped rfl h
  · exact .escaped rfl h
  · exact .escaped rfl h
  · exact .escaped rfl h
  next hquote hslash _ _ _ _ _ =>
    split
    next hcontrol =>
      have hunit : ∀ n < 0x20, hexUnit? '0' '0' (n / 16).digitChar (n % 16).digitChar = some n := by
        decide +kernel
      have hhigh : isHighSurrogate c.toNat = false := by
        simp [isHighSurrogate]
        omega
      have hlow : isLowSurrogate c.toNat = false := by
        simp [isLowSurrogate]
        omega
      rw [unicodeEscape_toList hcontrol]
      have hspelled := SpellsChars.unit (hunit _ hcontrol) hhigh hlow h
      rwa [Char.ofNat_toNat] at hspelled
    next hcontrol =>
      have hspelled := SpellsChars.plain hquote hslash (Nat.not_lt.1 hcontrol) h
      simpa using hspelled

theorem toList_quote (s : String) :
    (quote s).toList = '"' :: ((s.toList.flatMap fun c => (escape c).toList) ++ ['"']) := by
  simp [quote, List.flatMap_map]

theorem spellsChars_quoted (s : List Char) :
    SpellsChars s (s.flatMap fun c => (escape c).toList) := by
  induction s with
  | nil => exact .nil
  | cons c s ih => exact spellsChars_escape c ih

/-- A way to lay values out, each at a level of nesting. Scalars have one text at all levels. Parts
of an array or object stand behind the white space `line` of their level, and a value behind `space`
after its key. -/
structure IsLayout (write : Nat → Json → List Char) (line : Nat → List Char) (space : List Char) :
    Prop where
  allBlank_line : ∀ level, AllBlank (line level)
  allBlank_space : AllBlank space
  null : ∀ level, write level .null = ['n', 'u', 'l', 'l']
  boolTrue : ∀ level, write level (.bool true) = ['t', 'r', 'u', 'e']
  boolFalse : ∀ level, write level (.bool false) = ['f', 'a', 'l', 's', 'e']
  integer : ∀ level negative magnitude,
    write level (.integer negative magnitude) = (integerText negative magnitude).toList
  string : ∀ level s, write level (.string s) = (quote s).toList
  emptyArray : ∀ level, write level (.array []) = ['[', ']']
  array : ∀ level items, items ≠ [] → write level (.array items) =
    '[' :: (line (level + 1) ++ ((List.intercalate (',' :: line (level + 1))
      (items.map (write (level + 1))) ++ line level) ++ [']']))
  emptyObject : ∀ level, write level (.object []) = ['\x7b', '\x7d']
  object : ∀ level members, members ≠ [] → write level (.object members) =
    '\x7b' :: (line (level + 1) ++ ((List.intercalate (',' :: line (level + 1))
      (members.map fun m => (quote m.1).toList ++ ':' :: (space ++ write (level + 1) m.2)) ++
        line level) ++ ['\x7d']))

/-- Texts of the parts of a list with commas between them are a text of the list. -/
theorem spellsList_intercalate {α : Type} {P : α → List Char → Prop} {text : α → List Char}
    {l : List α} (hl : ∀ a ∈ l, P a (text a)) (hne : l ≠ []) {before after : List Char}
    (hbefore : AllBlank before) (hafter : AllBlank after) :
    SpellsList P l (List.intercalate (',' :: before) (l.map text) ++ after) := by
  induction l with
  | nil => exact absurd rfl hne
  | cons a l ih =>
    have ha := hl a List.mem_cons_self
    cases l with
    | nil =>
      rw [List.map_cons, List.map_nil, List.intercalate_singleton]
      exact .last ha hafter
    | cons b l =>
      have htail := ih (fun x hx => hl x (List.mem_cons_of_mem a hx)) (List.cons_ne_nil b l)
      have hall := SpellsList.cons ha .nil hbefore htail
      simpa [List.intercalate_cons_cons] using hall

/-- Every layout gives texts of the values. -/
theorem IsLayout.spells {write : Nat → Json → List Char} {line : Nat → List Char}
    {space : List Char} (hlayout : IsLayout write line space) {n : Nat} {j : Json}
    (hj : NestsWithin n j) (level : Nat) : j.Spells (write level j) := by
  induction hj generalizing level with
  | null =>
    rw [hlayout.null]
    exact .null
  | bool b =>
    cases b with
    | true =>
      rw [hlayout.boolTrue]
      exact .boolTrue
    | false =>
      rw [hlayout.boolFalse]
      exact .boolFalse
  | integer negative magnitude =>
    rw [hlayout.integer]
    exact .integer negative magnitude
  | string s =>
    rw [hlayout.string, toList_quote]
    exact .string (spellsChars_quoted s.toList)
  | @array _ items _ ih =>
    by_cases hne : items = []
    · subst hne
      rw [hlayout.emptyArray]
      exact .emptyArray .nil
    · rw [hlayout.array level items hne]
      exact .array (hlayout.allBlank_line _) (spellsList_intercalate
        (fun j hj => ih j hj (level + 1)) hne (hlayout.allBlank_line _) (hlayout.allBlank_line _))
  | @object _ members _ ih =>
    by_cases hne : members = []
    · subst hne
      rw [hlayout.emptyObject]
      exact .emptyObject .nil
    · rw [hlayout.object level members hne]
      refine .object (hlayout.allBlank_line _) (spellsList_intercalate (fun m hm => ?_) hne
        (hlayout.allBlank_line _) (hlayout.allBlank_line _))
      rw [toList_quote, List.cons_append, List.append_assoc]
      exact .mk (spellsChars_quoted m.1.toList) .nil hlayout.allBlank_space (ih m hm (level + 1))

theorem compactItems_eq_map (items : List Json) : compactItems items = items.map compact := by
  induction items with
  | nil => rfl
  | cons j items ih => rw [compactItems, ih, List.map_cons]

theorem compactMembers_eq_map (members : List (String × Json)) :
    compactMembers members = members.map fun m => quote m.1 ++ ":" ++ compact m.2 := by
  induction members with
  | nil => rfl
  | cons m members ih => rw [compactMembers, ih, List.map_cons]

/-- Without white space. -/
theorem compact_isLayout : IsLayout (fun _ j => j.compact.toList) (fun _ => []) [] where
  allBlank_line _ := .nil
  allBlank_space := .nil
  null _ := rfl
  boolTrue _ := rfl
  boolFalse _ := rfl
  integer _ _ _ := rfl
  string _ _ := rfl
  emptyArray _ := rfl
  array _ items _ := by
    simp [compact, compactItems_eq_map, Function.comp_def]
  emptyObject _ := rfl
  object _ members _ := by
    simp [compact, compactMembers_eq_map, Function.comp_def]

theorem prettyItems_eq_map (level : Nat) (items : List Json) :
    prettyItems level items = items.map (prettyAt level) := by
  induction items with
  | nil => rfl
  | cons j items ih => rw [prettyItems, ih, List.map_cons]

theorem prettyMembers_eq_map (level : Nat) (members : List (String × Json)) :
    prettyMembers level members = members.map fun m => quote m.1 ++ ": " ++ prettyAt level m.2 := by
  induction members with
  | nil => rfl
  | cons m members ih => rw [prettyMembers, ih, List.map_cons]

theorem toList_newline (level : Nat) :
    (newline level).toList = '\n' :: List.replicate (2 * level) ' ' := by
  simp [newline]

theorem allBlank_newline (level : Nat) : AllBlank (newline level).toList := by
  rw [toList_newline]
  intro c hc
  rcases List.mem_cons.1 hc with rfl | hc
  · rfl
  · rw [List.eq_of_mem_replicate hc]
    rfl

theorem toList_block {lines : List String} (h : lines ≠ []) (level : Nat)
    (opening closing : String) :
    (block level opening closing lines).toList =
      opening.toList ++ ((newline (level + 1)).toList ++
        ((List.intercalate (',' :: (newline (level + 1)).toList) (lines.map String.toList) ++
          (newline level).toList) ++ closing.toList)) := by
  have hlines : lines.isEmpty = false := by simpa using h
  simp [block, hlines]

/-- With one part a line. -/
theorem prettyAt_isLayout :
    IsLayout (fun level j => (prettyAt level j).toList) (fun level => (newline level).toList)
      [' '] where
  allBlank_line := allBlank_newline
  allBlank_space := by simp [AllBlank, isBlank]
  null _ := by rw [prettyAt]; rfl
  boolTrue _ := by rw [prettyAt]; rfl
  boolFalse _ := by rw [prettyAt]; rfl
  integer _ _ _ := by rw [prettyAt]
  string _ _ := by rw [prettyAt]
  emptyArray _ := by simp [prettyAt, prettyItems, block]
  array level items hne := by
    rw [prettyAt, prettyItems_eq_map, toList_block (by simpa using hne), List.map_map]
    rfl
  emptyObject _ := by simp [prettyAt, prettyMembers, block]
  object level members hne := by
    rw [prettyAt, prettyMembers_eq_map, toList_block (by simpa using hne), List.map_map]
    simp [Function.comp_def]

theorem spellsText_compact {n : Nat} {j : Json} (hj : NestsWithin n j) : j.SpellsText j.compact :=
  ⟨[], j.compact.toList, [], .nil, .nil, compact_isLayout.spells hj 0, by simp⟩

theorem spellsText_pretty {n : Nat} {j : Json} (hj : NestsWithin n j) : j.SpellsText j.pretty :=
  ⟨[], j.pretty.toList, [], .nil, .nil, prettyAt_isLayout.spells hj 0, by simp⟩

end Json

end Assembler
