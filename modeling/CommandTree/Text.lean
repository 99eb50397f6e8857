/-!
Command text is a list of bytes; every length and position counts bytes. This module holds the
bytes with a meaning of their own, cutting, and the two orders used on texts: by byte value, and
without regard to case.
-/

namespace CommandTree

/-- A text is its bytes, whether or not they are valid UTF-8. -/
abbrev Text := List UInt8

/-- The UTF-8 bytes of a string. -/
def text (s : String) : Text := s.toUTF8.data.toList

namespace Byte

def nul : UInt8 := 0
def space : UInt8 := 32
def quote : UInt8 := 34
def apostrophe : UInt8 := 39
def plus : UInt8 := 43
def minus : UInt8 := 45
def dot : UInt8 := 46
def backslash : UInt8 := 92
def underscore : UInt8 := 95

def isDigit (c : UInt8) : Bool := 48 ≤ c && c ≤ 57

def isUpper (c : UInt8) : Bool := 65 ≤ c && c ≤ 90

def isLower (c : UInt8) : Bool := 97 ≤ c && c ≤ 122

/-- A digit to base sixteen, in either case. -/
def isHexDigit (c : UInt8) : Bool :=
  isDigit c || (65 ≤ c && c ≤ 70) || (97 ≤ c && c ≤ 102)

/-- A letter, a digit or an underscore. -/
def isWordByte (c : UInt8) : Bool := isDigit c || isUpper c || isLower c || c = underscore

/-- Tab, line feed, vertical tab, form feed, carriage return and the space. -/
def isBlank (c : UInt8) : Bool := c = space || (9 ≤ c && c ≤ 13)

/-- Only ASCII letters have a case. -/
def lower (c : UInt8) : UInt8 := if isUpper c then c + 32 else c

def upper (c : UInt8) : UInt8 := if isLower c then c - 32 else c

/-- What a digit stands for. The letters go on from ten, in either case. -/
def digitValue (c : UInt8) : Nat := if isDigit c then c.toNat - 48 else (lower c).toNat - 87

/-- The value of a byte read as a signed 8-bit number. -/
def signed (c : UInt8) : Int := if c < 128 then c.toNat else (c.toNat : Int) - 256

end Byte

/-- The byte that ends one token of a command and begins the next. -/
def separator : UInt8 := Byte.space

namespace Text

def lower (t : Text) : Text := t.map Byte.lower

@[simp] theorem length_lower (t : Text) : t.lower.length = t.length := List.length_map _

/-- The bytes up to the first separator. -/
def token (t : Text) : Text := t.takeWhile (· != separator)

/-- The bytes up to the first NUL. -/
def untilNul (t : Text) : Text := t.takeWhile (· != Byte.nul)

/-- At most `count` bytes from position `start`, or all of them when `count` is negative. There is
nothing to cut at a position outside the text; its end counts as inside. -/
def slice? (t : Text) (start count : Int) : Option Text :=
  if 0 ≤ start ∧ start ≤ t.length then
    let rest := t.drop start.toNat
    some (if count < 0 then rest else rest.take count.toNat)
  else none

theorem slice?_isSome (t : Text) (start count : Int) :
    (t.slice? start count).isSome ↔ 0 ≤ start ∧ start ≤ t.length := by
  unfold slice?; split <;> simp_all

/-- The leading `count` bytes, or the whole text when `count` is negative. -/
def first (t : Text) (count : Int) : Text := if count < 0 then t else t.take count.toNat

/-- What a text is compared by when case does not count: its upper-case bytes as signed numbers,
so that bytes from 128 up stand before ASCII. -/
def caselessKey (t : Text) : List Int := t.map fun c => Byte.signed (Byte.upper c)

/-- The order of completions: first without regard to case, then by byte value. -/
def precedes (a b : Text) : Bool :=
  if a.caselessKey < b.caselessKey then true
  else if b.caselessKey < a.caselessKey then false
  else a < b

/-- Puts a text into a strictly increasing list, once. -/
def insertSorted (t : Text) : List Text → List Text
  | [] => [t]
  | u :: us => if t = u then u :: us else if t < u then t :: u :: us else u :: insertSorted t us

theorem mem_insertSorted {t u : Text} {us : List Text} :
    u ∈ insertSorted t us ↔ u = t ∨ u ∈ us := by
  induction us with
  | nil => simp [insertSorted]
  | cons v us ih =>
    by_cases h : t = v
    · simp [insertSorted, h]
    · by_cases hl : t < v
      · simp [insertSorted, h, hl]
      · simp [insertSorted, h, hl, ih]
        grind

/-- The distinct texts of a list in increasing order. -/
def sortedSet (ts : List Text) : List Text := ts.foldr insertSorted []

theorem mem_sortedSet {u : Text} {ts : List Text} : u ∈ sortedSet ts ↔ u ∈ ts := by
  induction ts with
  | nil => simp [sortedSet]
  | cons t ts ih => rw [sortedSet, List.foldr_cons, mem_insertSorted, ← sortedSet, ih]; simp

end Text

end CommandTree
