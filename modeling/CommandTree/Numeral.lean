import CommandTree.Decimal

/-!
Numerals are the texts by which definitions give numbers: decimals that may have a power of ten,
hexadecimals that may have a power of two, infinities, and values that are no number. Blanks and a
sign may stand before a numeral, and what follows it does not count.
-/

namespace CommandTree

inductive Numeral
  | decimal (value : Decimal.Scaled)
  /-- The number `± digits · 2 ^ exponent`. -/
  | hexadecimal (negative : Bool) (digits : Nat) (exponent : Int)
  | infinite (negative : Bool)
  /-- No number; a payload tells such values apart. -/
  | notANumber (negative : Bool) (payload : Nat)
deriving DecidableEq, Repr

namespace Numeral

/-- Splits off a sign. -/
def unsign : Text → Bool × Text
  | [] => (false, [])
  | c :: rest => if c = Byte.plus then (false, rest) else Decimal.unsign (c :: rest)

/-- What follows a word at the start of a text. The case of the text does not count. -/
def after? (word t : Text) : Option Text :=
  if word.isPrefixOf t.lower then some (t.drop word.length) else none

/-- The number that a row of digits denotes in a base; letters stand for ten and more. -/
def valueIn (base : Nat) (digits : Text) : Nat :=
  digits.foldl (fun n c => base * n + Byte.digitValue c) 0

/-- The power that stands behind a mark, zero where none does. -/
def readPower (mark : UInt8) : Text → Int
  | [] => 0
  | c :: rest =>
    if Byte.lower c = mark then
      let (negative, rest) := unsign rest
      let n : Int := Decimal.value (rest.takeWhile Byte.isDigit)
      if negative then -n else n
    else 0

/-- A decimal, with the mark `e` before its power of ten. -/
def readDecimal? (negative : Bool) (t : Text) : Option Numeral :=
  (Decimal.readPointed? Byte.isDigit t).map fun (whole, part, rest) =>
    decimal ⟨negative, Decimal.value (whole ++ part), readPower 101 rest - part.length⟩

/-- A hexadecimal, with `0x` before its digits and the mark `p` before its power of two. -/
def readHexadecimal? (negative : Bool) (t : Text) : Option Numeral :=
  match after? (text "0x") t with
  | none => none
  | some t =>
    (Decimal.readPointed? Byte.isHexDigit t).map fun (whole, part, rest) =>
      hexadecimal negative (valueIn 16 (whole ++ part)) (readPower 112 rest - 4 * part.length)

/-- The word in brackets at the start of a text, empty where there is none. -/
def bracketed : Text → Text
  | [] => []
  | c :: rest =>
    let word := rest.takeWhile Byte.isWordByte
    if c = 40 ∧ (rest.drop word.length).head? = some 41 then word else []

/-- The payload that a word denotes: a hexadecimal number behind `0x`, an octal one behind `0`, or a
decimal one, up to the greatest 64-bit number. Any other word denotes zero. -/
def payloadOf (word : Text) : Nat :=
  let n := match after? (text "0x") word with
    | some digits => if digits.all Byte.isHexDigit then valueIn 16 digits else 0
    | none =>
      if !word.all Byte.isDigit then 0
      else if word.head? ≠ some 48 then valueIn 10 word
      else if word.all fun c => c ≤ 55 then valueIn 8 word
      else 0
  min n 18446744073709551615

/-- Reads a numeral. A text that begins with none counts as zero. -/
def read (t : Text) : Numeral :=
  let (negative, t) := unsign (t.dropWhile Byte.isBlank)
  match after? (text "inf") t, after? (text "nan") t with
  | some _, _ => infinite negative
  | none, some rest => notANumber negative (payloadOf (bracketed rest))
  | none, none =>
    match readHexadecimal? negative t with
    | some n => n
    | none => (readDecimal? negative t).getD (decimal ⟨false, 0, 0⟩)

/-- The whole number that a text begins with, zero if there is none. -/
def readWhole (t : Text) : Int :=
  let (negative, t) := unsign (t.dropWhile Byte.isBlank)
  let n : Int := Decimal.value (t.takeWhile Byte.isDigit)
  if negative then -n else n

end Numeral

end CommandTree
