import Assembler.Word

/-!
# Written words

Words are written in decimal or in lower-case hexadecimal. In both a negative word is a minus sign
followed by its absolute value, so a minimum width in hexadecimal does not count the sign.
-/

namespace Assembler

/-- The digits of `n` in lower-case hexadecimal. -/
def hexDigits (n : Nat) : String := String.ofList (Nat.toDigits 16 n)

/-- A byte as two hexadecimal digits. -/
def byteHex (b : UInt8) : String :=
  let digits := hexDigits b.toNat
  if digits.length < 2 then "0" ++ digits else digits

/-- Bytes as hexadecimal digits, two each, with nothing between them. -/
def bytesHex (bytes : List UInt8) : String := String.join (bytes.map byteHex)

/-- `text` with spaces after it up to `width` characters. -/
def padRight (width : Nat) (text : String) : String :=
  text ++ String.ofList (List.replicate (width - text.length) ' ')

namespace Word

/-- A minus sign for a negative word, nothing for any other. -/
def sign (w : Word) : String := if w.isNegative then "-" else ""

/-- Decimal text. -/
def decimal (w : Word) : String := w.sign ++ w.toInt.natAbs.repr

/-- Decimal text with a sign in front of every word. -/
def signedDecimal (w : Word) : String :=
  if w.isNegative then w.decimal else "+" ++ w.decimal

/-- Hexadecimal digits without a mark. -/
def hexPlain (w : Word) : String := w.sign ++ hexDigits w.toInt.natAbs

/-- Hexadecimal text after `0x`, of at least `width` characters with the mark. -/
def hexWidth (width : Nat) (w : Word) : String :=
  let digits := hexDigits w.toInt.natAbs
  w.sign ++ "0x" ++ String.ofList (List.replicate (width - 2 - digits.length) '0') ++ digits

/-- Hexadecimal text after `0x`. -/
def hex (w : Word) : String := hexWidth 0 w

end Word

end Assembler
