import Assembler.Expr.Printer
import Assembler.Proofs.Growth

/-!
# The shape of a printed expression

A printed expression is a `Phrase`: a segment, and behind it links, each an operator between blanks
with its operand. A segment is a number, a name or a cursor, possibly behind operators that are
written in front, or a phrase in parentheses. Nothing else of the tree is on paper: an increment is
the link `+ 1`, as a sum with one is, and it stands behind the whole segment even if an operator in
front of the segment is applied to it.

`Expr.phrase` is the phrase that an expression is written as (`Expr.toList_text`). A phrase whose
names are plain can be recovered from its text (`Phrase.text_injective`), so two expressions print
alike exactly if they are written as one phrase (`Expr.text_eq_iff`).
-/

namespace Assembler

/-! ## Names and digits -/

/-- A letter or an underscore. Every character outside ASCII counts as a letter. -/
def isNameStart (c : Char) : Bool := c.isAlpha || c == '_' || 128 ≤ c.toNat

/-- A character of a name behind its first one. -/
def isNamePart (c : Char) : Bool := isNameStart c || c.isDigit || c == '.'

/-- A letter or underscore, followed by letters, digits, underscores and dots. -/
def isPlainName (name : String) : Bool :=
  match name.toList with
  | [] => false
  | c :: rest => isNameStart c && rest.all isNamePart

theorem exists_toList_of_isPlainName {name : String} (h : isPlainName name) :
    ∃ c rest, name.toList = c :: rest ∧ isNameStart c ∧ ∀ d ∈ rest, isNamePart d := by
  unfold isPlainName at h
  split at h
  · cases h
  next c rest htext =>
    obtain ⟨hc, hrest⟩ := Bool.and_eq_true_iff.1 h
    exact ⟨c, rest, htext, hc, List.all_eq_true.1 hrest⟩

/-- Digits do not start names. -/
theorem isDigit_of_isNameStart {c : Char} (h : isNameStart c) : c.isDigit = false := by
  have hval : c.toNat = c.val.toNat := rfl
  have halpha : c.isAlpha =
      (decide (c.val ≥ 'A'.val ∧ c.val ≤ 'Z'.val) || (c.val ≥ 'a'.val && c.val ≤ 'z'.val)) := rfl
  simp only [isNameStart, halpha, Bool.or_eq_true, Bool.and_eq_true, decide_eq_true_eq,
    beq_iff_eq, UInt32.le_iff_toNat_le, ge_iff_le] at h
  simp only [Char.isDigit, Bool.and_eq_false_iff, decide_eq_false_iff_not,
    UInt32.le_iff_toNat_le, ge_iff_le]
  have hnine : '9'.val.toNat = 57 := rfl
  rcases h with (h | rfl) | h
  · have hupper : 'A'.val.toNat = 65 := rfl
    have hlower : 'a'.val.toNat = 97 := rfl
    omega
  · decide
  · omega

/-- The value of a hexadecimal digit. -/
def hexDigitValue (c : Char) : Nat := if c.isDigit then c.toNat - 48 else c.toNat - 87

/-- The number with these hexadecimal digits. -/
def hexValue (digits : List Char) : Nat :=
  digits.foldl (fun n c => 16 * n + hexDigitValue c) 0

theorem hexDigitValue_digitChar : ∀ d < 16, hexDigitValue (Nat.digitChar d) = d := by decide

/-- Hexadecimal digits are read as the number that they were written for. -/
theorem hexValue_toDigits (n : Nat) : hexValue (Nat.toDigits 16 n) = n := by
  induction n using Nat.strongRecOn with
  | ind n ih =>
    rw [Nat.toDigits_eq_if (by decide)]
    split
    next hlt => simp [hexValue, hexDigitValue_digitChar n hlt]
    next hge =>
      have hhigh : hexValue (Nat.toDigits 16 (n / 16)) = n / 16 := ih _ (by omega)
      have hlow : hexDigitValue (Nat.digitChar (n % 16)) = n % 16 :=
        hexDigitValue_digitChar _ (by omega)
      rw [hexValue, List.foldl_append, ← hexValue, hhigh, List.foldl_cons, List.foldl_nil, hlow]
      omega

theorem exists_of_mem_toDigits {n : Nat} {c : Char} (h : c ∈ Nat.toDigits 16 n) :
    ∃ d < 16, c = Nat.digitChar d := by
  induction n using Nat.strongRecOn with
  | ind n ih =>
    rw [Nat.toDigits_eq_if (by decide)] at h
    split at h
    next hlt => exact ⟨n, hlt, List.mem_singleton.1 h⟩
    next hge =>
      rcases List.mem_append.1 h with hhigh | hlow
      · exact ih _ (by omega) hhigh
      · exact ⟨n % 16, by omega, List.mem_singleton.1 hlow⟩

/-! ## Phrases -/

/-- A number, a cursor or a name. -/
inductive Atom
  | decimal (n : Nat)
  | hexadecimal (n : Nat)
  | position
  | sectionStart
  | name (identifier : String)
deriving DecidableEq, Repr

mutual

/-- What stands between two operators. -/
inductive Segment
  | atom (a : Atom)
  | prefixed (op : UnaryOp) (s : Segment)
  | parens (first : Segment) (links : Links)

/-- Operators with their right operands. -/
inductive Links
  | nil
  | cons (op : BinaryOp) (s : Segment) (rest : Links)

end

/-- A segment with links behind it. -/
structure Phrase where
  first : Segment
  links : Links

/-- The operator of the link that a step is written as. Any other operator stands in front. -/
def UnaryOp.step? : UnaryOp → Option BinaryOp
  | .increment => some .add
  | .decrement => some .sub
  | _ => none

namespace Atom

def text : Atom → List Char
  | decimal n => Nat.toDigits 10 n
  | hexadecimal n => '0' :: 'x' :: Nat.toDigits 16 n
  | position => ['$']
  | sectionStart => ['$', '$']
  | name identifier => identifier.toList

/-- Nothing but a plain name stands for a name. -/
def IsReadable : Atom → Prop
  | name identifier => isPlainName identifier
  | _ => True

/-- The atom with a given text. -/
def ofText : List Char → Atom
  | ['$'] => position
  | ['$', '$'] => sectionStart
  | '0' :: 'x' :: digits => hexadecimal (hexValue digits)
  | text =>
    if text.all Char.isDigit then decimal (Nat.ofDigitChars 10 text 0)
    else name (String.ofList text)

end Atom

mutual

def Segment.text : Segment → List Char
  | .atom a => a.text
  | .prefixed op s => op.symbol.toList ++ s.text
  | .parens first links => '(' :: first.text ++ links.text ++ [')']

def Links.text : Links → List Char
  | .nil => []
  | .cons op s rest => ' ' :: op.symbol.toList ++ ' ' :: s.text ++ rest.text

end

mutual

/-- Names are plain, and a step is never in front. -/
def Segment.IsReadable : Segment → Prop
  | .atom a => a.IsReadable
  | .prefixed op s => op.step? = none ∧ s.IsReadable
  | .parens first links => first.IsReadable ∧ links.IsReadable

def Links.IsReadable : Links → Prop
  | .nil => True
  | .cons _ s rest => s.IsReadable ∧ rest.IsReadable

end

namespace Links

def append : Links → Links → Links
  | nil, after => after
  | cons op s rest, after => cons op s (rest.append after)

theorem text_append (links after : Links) :
    (links.append after).text = links.text ++ after.text :=
  match links with
  | nil => rfl
  | cons op s rest => by simp [append, text, text_append rest]

theorem IsReadable.append {links after : Links} (h : links.IsReadable) (hafter : after.IsReadable) :
    (links.append after).IsReadable :=
  match links with
  | nil => hafter
  | cons _ _ _ => ⟨h.1, IsReadable.append h.2 hafter⟩

theorem append_assoc (a b c : Links) : (a.append b).append c = a.append (b.append c) :=
  match a with
  | nil => rfl
  | cons op s rest => by simp [append, append_assoc rest]

end Links

namespace Phrase

def text (p : Phrase) : List Char := p.first.text ++ p.links.text

def IsReadable (p : Phrase) : Prop := p.first.IsReadable ∧ p.links.IsReadable

/-- The phrase in parentheses. -/
def enclosed (p : Phrase) : Phrase := ⟨.parens p.first p.links, .nil⟩

/-- Two phrases with an operator between them. -/
def join (op : BinaryOp) (p q : Phrase) : Phrase :=
  ⟨p.first, p.links.append (.cons op q.first q.links)⟩

/-- The number one, as it is written. -/
def one : Phrase := ⟨.atom (.decimal 1), .nil⟩

/-- The phrase with an operator on it. -/
def unary (op : UnaryOp) (p : Phrase) : Phrase :=
  match op.step? with
  | some link => p.join link one
  | none => ⟨.prefixed op p.first, p.links⟩

theorem unary_of_some {op : UnaryOp} {link : BinaryOp} (h : op.step? = some link) (p : Phrase) :
    p.unary op = p.join link one := by
  rw [unary, h]

theorem unary_of_none {op : UnaryOp} (h : op.step? = none) (p : Phrase) :
    p.unary op = ⟨.prefixed op p.first, p.links⟩ := by
  rw [unary, h]

theorem text_enclosed (p : Phrase) : p.enclosed.text = '(' :: p.text ++ [')'] := by
  simp [enclosed, text, Segment.text, Links.text]

theorem text_join (op : BinaryOp) (p q : Phrase) :
    (p.join op q).text = p.text ++ ' ' :: op.symbol.toList ++ ' ' :: q.text := by
  simp [join, text, Links.text_append, Links.text]

theorem IsReadable.join {p q : Phrase} (op : BinaryOp) (hp : p.IsReadable) (hq : q.IsReadable) :
    (p.join op q).IsReadable :=
  ⟨hp.1, hp.2.append ⟨hq.1, hq.2⟩⟩

theorem IsReadable.unary {p : Phrase} (op : UnaryOp) (hp : p.IsReadable) :
    (p.unary op).IsReadable := by
  cases hop : op.step? with
  | some link =>
    rw [unary_of_some hop]
    exact hp.join link ⟨trivial, trivial⟩
  | none =>
    rw [unary_of_none hop]
    exact ⟨⟨hop, hp.1⟩, hp.2⟩

end Phrase

/-! ## The phrase of an expression -/

namespace Expr

/-- A negative number is written in hexadecimal behind a minus sign. -/
def constantSegment (v : Word) : Segment :=
  if v.toInt < 0 then .prefixed .negate (.atom (.hexadecimal v.toInt.natAbs))
  else if v.toInt < 10 then .atom (.decimal v.toInt.natAbs)
  else .atom (.hexadecimal v.toInt.natAbs)

/-- The phrase of an expression as an operand, given its phrase. -/
def enclose : Expr → Phrase → Phrase
  | .binary _ _ _, p => p.enclosed
  | _, p => p

/-- What an expression is written as. -/
def phrase : Expr → Phrase
  | .constant v => ⟨constantSegment v, .nil⟩
  | .position => ⟨.atom .position, .nil⟩
  | .sectionStart => ⟨.atom .sectionStart, .nil⟩
  | .reference identifier => ⟨.atom (.name identifier), .nil⟩
  | .unary op e => (e.enclose e.phrase).unary op
  | .binary op l r => (l.enclose l.phrase).join op (r.enclose r.phrase)
  | .function name _ => ⟨.atom (.name (name ++ "(...)")), .nil⟩

/-- What an expression is written as where it is an operand. -/
def operand (e : Expr) : Phrase := e.enclose e.phrase

theorem text_constantSegment (v : Word) : (constantSegment v).text = (constantText v).toList := by
  unfold constantSegment constantText Word.decimal Word.hex Word.hexWidth Word.sign Word.isNegative
  by_cases hneg : v.toInt < 0
  · have hrange : ¬(0 ≤ v.toInt ∧ v.toInt < 10) := fun h => absurd hneg (Int.not_lt.2 h.1)
    simp [hneg, hrange, Segment.text, Atom.text, UnaryOp.symbol, hexDigits]
  · have hpos : 0 ≤ v.toInt := Int.not_lt.1 hneg
    by_cases hten : v.toInt < 10
    · simp [hneg, hpos, hten, Segment.text, Atom.text, Nat.repr_eq_ofList_toDigits]
    · simp [hneg, hten, Segment.text, Atom.text, hexDigits]

theorem text_enclose (e : Expr) {p : Phrase} (hp : p.text = e.text.toList) :
    (e.enclose p).text = (e.parenthesized e.text).toList := by
  cases e with
  | binary op l r => simp [enclose, parenthesized, Phrase.text_enclosed, hp]
  | _ => exact hp

theorem text_unary (op : UnaryOp) (p : Phrase) {operand : String} (hp : p.text = operand.toList) :
    (p.unary op).text = (unaryText op operand).toList := by
  have hone : Phrase.one.text = ['1'] := rfl
  cases op with
  | increment | decrement =>
    simp [Phrase.unary, UnaryOp.step?, Phrase.text_join, hone, unaryText, BinaryOp.symbol, hp]
  | _ => simp [Phrase.unary, UnaryOp.step?, Phrase.text, Segment.text, unaryText, ← hp]

/-- The phrase of an expression is spelled as the expression is printed. -/
theorem toList_text (e : Expr) : e.text.toList = e.phrase.text := by
  induction e with
  | constant v => simp [text, phrase, Phrase.text, Links.text, text_constantSegment]
  | position | sectionStart | reference | function =>
    simp [text, phrase, Phrase.text, Segment.text, Links.text, Atom.text]
  | unary op e ih => exact (text_unary op _ (text_enclose e ih.symm)).symm
  | binary op l r ihl ihr =>
    rw [phrase, Phrase.text_join, text_enclose l ihl.symm, text_enclose r ihr.symm]
    simp [text]

theorem text_eq_of_phrase_eq {e e' : Expr} (h : e.phrase = e'.phrase) : e.text = e'.text := by
  rw [← String.toList_inj, toList_text, toList_text, h]

theorem isReadable_constantSegment (v : Word) : (constantSegment v).IsReadable := by
  unfold constantSegment
  split
  · exact ⟨rfl, trivial⟩
  · split <;> trivial

theorem isReadable_enclose {e : Expr} {p : Phrase} (hp : p.IsReadable) :
    (e.enclose p).IsReadable := by
  cases e with
  | binary op l r => exact ⟨hp, trivial⟩
  | _ => exact hp

/-- Function-free expressions with plain names are written as readable phrases. -/
theorem isReadable_phrase {e : Expr} (he : e.IsFunctionFree)
    (hnames : ∀ name ∈ e.references, isPlainName name) : e.phrase.IsReadable := by
  induction e with
  | constant v => exact ⟨isReadable_constantSegment v, trivial⟩
  | position | sectionStart => exact ⟨trivial, trivial⟩
  | reference identifier => exact ⟨hnames identifier List.mem_cons_self, trivial⟩
  | unary op e ih => exact (isReadable_enclose (ih he hnames)).unary op
  | binary op l r ihl ihr =>
    have hl := ihl he.1 fun name hname => hnames name (List.mem_append_left _ hname)
    have hr := ihr he.2 fun name hname => hnames name (List.mem_append_right _ hname)
    exact (isReadable_enclose hl).join op (isReadable_enclose hr)
  | function name value => cases he

end Expr

/-! ## Reading a phrase back -/

/-- How a segment starts. -/
inductive Opening
  | atom
  | sign
  | paren
deriving DecidableEq

namespace Opening

def ofChar (c : Char) : Opening :=
  if c = '(' then .paren else if c ∈ ['-', '+', '~', '!'] then .sign else .atom

end Opening

def Segment.opening : Segment → Opening
  | .atom _ => .atom
  | .prefixed _ _ => .sign
  | .parens _ _ => .paren

/-- Whether a word goes on with this character. -/
def isWordPart (c : Char) : Bool := c != ' ' && c != ')'

/-- No word goes on in the text. -/
def Stops (text : List Char) : Prop := ∀ c, text.head? = some c → isWordPart c = false

/-- No link follows in the text. -/
def Closes (text : List Char) : Prop := ∀ c, text.head? = some c → c = ')'

theorem Closes.stops {text : List Char} (h : Closes text) : Stops text := by
  intro c hc
  rw [h c hc]
  rfl

/-- A text that ends where a class of characters does is found again in front of any other text. -/
theorem append_inj_of_head {α : Type} {q : α → Bool} {a a' b b' : List α} (ha : ∀ x ∈ a, q x)
    (ha' : ∀ x ∈ a', q x) (hb : ∀ x, b.head? = some x → q x = false)
    (hb' : ∀ x, b'.head? = some x → q x = false) (h : a ++ b = a' ++ b') : a = a' ∧ b = b' := by
  have hcut : ∀ {a b : List α}, (∀ x ∈ a, q x) → (∀ x, b.head? = some x → q x = false) →
      (a ++ b).takeWhile q = a := by
    intro a b ha hb
    rw [List.takeWhile_append_of_pos ha]
    cases b with
    | nil => simp
    | cons x b => simp [hb x rfl]
  have heq : a = a' := by rw [← hcut ha hb, h, hcut ha' hb']
  exact ⟨heq, List.append_cancel_left (heq ▸ h)⟩

namespace Atom

variable {a : Atom}

theorem ofText_cons {c : Char} {rest : List Char} (hcursor : c ≠ '$')
    (hmark : c = '0' → rest.head? ≠ some 'x') :
    ofText (c :: rest) =
      if (c :: rest).all Char.isDigit then decimal (Nat.ofDigitChars 10 (c :: rest) 0)
      else name (String.ofList (c :: rest)) := by
  unfold ofText
  split <;> simp_all

/-- Atoms are read as what they were written for. -/
theorem ofText_text (ha : a.IsReadable) : ofText a.text = a := by
  cases a with
  | decimal n =>
    have hdigits : ∀ c ∈ Nat.toDigits 10 n, c.isDigit := fun c hc =>
      Nat.isDigit_of_mem_toDigits (by decide) (by decide) hc
    obtain ⟨c, rest, htext⟩ := List.exists_cons_of_ne_nil (Nat.toDigits_ne_nil (b := 10) (n := n))
    have hother : ofText (c :: rest) = decimal (Nat.ofDigitChars 10 (c :: rest) 0) := by
      rw [htext] at hdigits
      rw [ofText_cons, if_pos (List.all_eq_true.2 hdigits)]
      -- neither `$` nor `x` is a digit
      · rintro rfl
        cases hdigits '$' List.mem_cons_self
      · intro _ hx
        cases hdigits 'x' (List.mem_cons_of_mem _ (List.mem_of_mem_head? hx))
    rw [text, htext, hother, ← htext, Nat.ofDigitChars_toDigits (by decide) (by decide)]
  | hexadecimal n => rw [text, ofText, hexValue_toDigits]
  | position | sectionStart => rfl
  | name identifier =>
    obtain ⟨c, rest, htext, hc, -⟩ := exists_toList_of_isPlainName ha
    have hcursor : c ≠ '$' := by
      rintro rfl
      cases hc
    have hdigit : c.isDigit = false := isDigit_of_isNameStart hc
    have hzero : c ≠ '0' := by
      rintro rfl
      cases hdigit
    rw [text, htext, ofText_cons hcursor (absurd · hzero), ← htext, String.ofList_toList]
    simp [htext, hdigit]

/-- An atom has no blank, parenthesis or operator in it. -/
theorem isNamePart_of_mem_text (ha : a.IsReadable) {c : Char} (hc : c ∈ a.text) :
    isNamePart c ∨ c = '$' := by
  cases a with
  | decimal n =>
    have hdigit := Nat.isDigit_of_mem_toDigits (by decide) (by decide) hc
    simp [isNamePart, hdigit]
  | hexadecimal n =>
    have hdigitChar : ∀ d < 16, isNamePart (Nat.digitChar d) := by decide
    rcases List.mem_cons.1 hc with rfl | hc
    · exact .inl rfl
    rcases List.mem_cons.1 hc with rfl | hc
    · exact .inl rfl
    obtain ⟨d, hd, rfl⟩ := exists_of_mem_toDigits hc
    exact .inl (hdigitChar d hd)
  | position | sectionStart =>
    right
    simpa [text] using hc
  | name identifier =>
    obtain ⟨start, rest, htext, hstart, hrest⟩ := exists_toList_of_isPlainName ha
    rw [text, htext] at hc
    rcases List.mem_cons.1 hc with rfl | hc
    · simp [isNamePart, hstart]
    · exact .inl (hrest c hc)

theorem isWordPart_of_mem_text (ha : a.IsReadable) : ∀ c ∈ a.text, isWordPart c := by
  intro c hc
  have hne : c ≠ ' ' ∧ c ≠ ')' := by
    constructor <;> rintro rfl <;> rcases isNamePart_of_mem_text ha hc with h | h <;> cases h
  simp [isWordPart, hne]

/-- The first character of an atom says that it is one. -/
theorem exists_head_text (ha : a.IsReadable) :
    ∃ c rest, a.text = c :: rest ∧ Opening.ofChar c = .atom := by
  have hne : a.text ≠ [] := by
    cases a with
    | decimal n => exact Nat.toDigits_ne_nil
    | hexadecimal | position | sectionStart => exact List.cons_ne_nil _ _
    | name identifier =>
      obtain ⟨c, rest, htext, -⟩ := exists_toList_of_isPlainName ha
      simp [text, htext]
  obtain ⟨c, rest, htext⟩ := List.exists_cons_of_ne_nil hne
  have hc := isNamePart_of_mem_text ha (htext ▸ List.mem_cons_self)
  refine ⟨c, rest, htext, ?_⟩
  have hparen : c ≠ '(' := by
    rintro rfl
    rcases hc with h | h <;> cases h
  have hsign : c ∉ ['-', '+', '~', '!'] := by
    intro hmem
    simp only [List.mem_cons, List.not_mem_nil, or_false] at hmem
    rcases hmem with rfl | rfl | rfl | rfl <;> rcases hc with h | h <;> cases h
  rw [Opening.ofChar, if_neg hparen, if_neg hsign]

end Atom

/-! ### Operators -/

namespace UnaryOp

/-- An operator in front of a segment is one character. -/
theorem exists_symbol {op : UnaryOp} (h : op.step? = none) :
    ∃ c, op.symbol.toList = [c] ∧ Opening.ofChar c = .sign := by
  cases op with
  | increment | decrement => cases h
  | _ => exact ⟨_, rfl, rfl⟩

theorem symbol_injective {op op' : UnaryOp} (h : op.symbol = op'.symbol) : op = op' := by
  cases op <;> cases op' <;> simp_all [symbol]

end UnaryOp

namespace BinaryOp

theorem symbol_injective {op op' : BinaryOp} (h : op.symbol = op'.symbol) : op = op' := by
  cases op <;> cases op' <;> simp_all [symbol]

theorem isWordPart_of_mem_symbol (op : BinaryOp) : ∀ c ∈ op.symbol.toList, isWordPart c := by
  intro c hc
  cases op <;> simp_all [symbol, isWordPart]

end BinaryOp

/-! ### Segments and links -/

theorem Segment.exists_head_text : {s : Segment} → s.IsReadable →
    ∃ c rest, s.text = c :: rest ∧ Opening.ofChar c = s.opening
  | .atom _, hs => Atom.exists_head_text hs
  | .prefixed op s, hs => by
    obtain ⟨c, hsymbol, hc⟩ := UnaryOp.exists_symbol hs.1
    exact ⟨c, s.text, by simp [Segment.text, hsymbol], hc⟩
  | .parens first links, _ =>
    ⟨'(', first.text ++ links.text ++ [')'], by simp [Segment.text], rfl⟩

/-- How a segment starts can be seen from the text. -/
theorem Segment.opening_eq {s s' : Segment} (hs : s.IsReadable) (hs' : s'.IsReadable)
    {after after' : List Char} (h : s.text ++ after = s'.text ++ after') :
    s.opening = s'.opening := by
  obtain ⟨c, rest, htext, hc⟩ := Segment.exists_head_text hs
  obtain ⟨c', rest', htext', hc'⟩ := Segment.exists_head_text hs'
  rw [htext, htext'] at h
  obtain ⟨rfl, -⟩ := List.cons.inj h
  exact hc.symm.trans hc'

theorem Links.stops_text_append (links : Links) {after : List Char} (h : Closes after) :
    Stops (links.text ++ after) := by
  cases links with
  | nil => exact h.stops
  | cons op s rest =>
    intro c hc
    obtain rfl : ' ' = c := by simpa [Links.text] using hc
    rfl

mutual

/-- A segment can be told from the text that starts with it. -/
theorem Segment.text_append_inj {s s' : Segment} (hs : s.IsReadable) (hs' : s'.IsReadable)
    {after after' : List Char} (hafter : Stops after) (hafter' : Stops after')
    (h : s.text ++ after = s'.text ++ after') : s = s' ∧ after = after' := by
  -- the first character shows that both segments have the same former
  have hopening := Segment.opening_eq hs hs' h
  match s, s', hopening with
  | .atom a, .atom a', _ =>
    obtain ⟨htext, rfl⟩ := append_inj_of_head (Atom.isWordPart_of_mem_text hs)
      (Atom.isWordPart_of_mem_text hs') hafter hafter' h
    refine ⟨?_, rfl⟩
    rw [← Atom.ofText_text hs, ← Atom.ofText_text hs', htext]
  | .prefixed op t, .prefixed op' t', _ =>
    obtain ⟨c, hc, -⟩ := UnaryOp.exists_symbol hs.1
    obtain ⟨c', hc', -⟩ := UnaryOp.exists_symbol hs'.1
    simp only [Segment.text, hc, hc', List.cons_append, List.nil_append] at h
    obtain ⟨hsymbol, hoperand⟩ := List.cons.inj h
    obtain rfl : op = op' :=
      UnaryOp.symbol_injective (String.toList_inj.1 (by rw [hc, hc', hsymbol]))
    obtain ⟨rfl, rfl⟩ := Segment.text_append_inj hs.2 hs'.2 hafter hafter' hoperand
    exact ⟨rfl, rfl⟩
  | .parens first links, .parens first' links', _ =>
    simp only [Segment.text, List.cons_append, List.append_assoc, List.nil_append] at h
    have hclose : ∀ text, Closes (')' :: text) := fun text c hc => (Option.some.inj hc).symm
    obtain ⟨rfl, hbehind⟩ := Segment.text_append_inj hs.1 hs'.1
      (links.stops_text_append (hclose after)) (links'.stops_text_append (hclose after'))
      (List.cons.inj h).2
    obtain ⟨rfl, hparen⟩ := Links.text_append_inj hs.2 hs'.2 (hclose after) (hclose after') hbehind
    exact ⟨rfl, (List.cons.inj hparen).2⟩

/-- Links can be told from the text that starts with all of them. -/
theorem Links.text_append_inj {links links' : Links} (hlinks : links.IsReadable)
    (hlinks' : links'.IsReadable) {after after' : List Char} (hafter : Closes after)
    (hafter' : Closes after') (h : links.text ++ after = links'.text ++ after') :
    links = links' ∧ after = after' := by
  match links, links' with
  | .nil, .nil => exact ⟨rfl, h⟩
  -- a link starts with a blank, and what follows the links does not
  | .nil, .cons op s rest =>
    have hblank : ' ' = ')' := hafter ' ' (by simpa [Links.text] using congrArg List.head? h)
    cases hblank
  | .cons op s rest, .nil =>
    have hblank : ' ' = ')' := hafter' ' ' (by simpa [Links.text] using congrArg List.head? h.symm)
    cases hblank
  | .cons op s rest, .cons op' s' rest' =>
    simp only [Links.text, List.cons_append, List.append_assoc] at h
    -- the operator ends at the blank behind it
    have hblank : ∀ text, Stops (' ' :: text) := fun text c hc => by
      rw [← Option.some.inj hc]
      rfl
    obtain ⟨hsymbol, hoperand⟩ := append_inj_of_head op.isWordPart_of_mem_symbol
      op'.isWordPart_of_mem_symbol (hblank _) (hblank _) (List.cons.inj h).2
    obtain rfl : op = op' := BinaryOp.symbol_injective (String.toList_inj.1 hsymbol)
    obtain ⟨rfl, hrest⟩ := Segment.text_append_inj hlinks.1 hlinks'.1
      (rest.stops_text_append hafter) (rest'.stops_text_append hafter') (List.cons.inj hoperand).2
    obtain ⟨rfl, rfl⟩ := Links.text_append_inj hlinks.2 hlinks'.2 hafter hafter' hrest
    exact ⟨rfl, rfl⟩

end

/-- A phrase can be recovered from its text. -/
theorem Phrase.text_injective {p q : Phrase} (hp : p.IsReadable) (hq : q.IsReadable)
    (h : p.text = q.text) : p = q := by
  have hend : Closes [] := fun c hc => by cases hc
  have htext : p.first.text ++ (p.links.text ++ []) = q.first.text ++ (q.links.text ++ []) := by
    simpa [Phrase.text] using h
  obtain ⟨hfirst, hbehind⟩ := Segment.text_append_inj hp.1 hq.1
    (p.links.stops_text_append hend) (q.links.stops_text_append hend) htext
  obtain ⟨hlinks, -⟩ := Links.text_append_inj hp.2 hq.2 hend hend hbehind
  cases p
  cases q
  cases hfirst
  cases hlinks
  rfl

/-- Expressions print alike exactly if they are written as one phrase. -/
theorem Expr.text_eq_iff {e e' : Expr} (he : e.IsFunctionFree) (he' : e'.IsFunctionFree)
    (hnames : ∀ name ∈ e.references, isPlainName name)
    (hnames' : ∀ name ∈ e'.references, isPlainName name) :
    e.text = e'.text ↔ e.phrase = e'.phrase := by
  refine ⟨fun h => ?_, text_eq_of_phrase_eq⟩
  rw [← String.toList_inj, toList_text, toList_text] at h
  exact Phrase.text_injective (isReadable_phrase he hnames) (isReadable_phrase he' hnames') h

end Assembler
