import CommandTree.Error

/-!
A reader is an input and a position in it. Reading yields an outcome and the number of bytes that
were passed over, which a failed reading may have passed over too; so no reading moves backwards or
changes the input.
-/

namespace CommandTree

structure Reader where
  input : Text
  cursor : Int
deriving DecidableEq, Repr

/-- An outcome and how many bytes were passed over on the way to it. -/
abbrev Reading (α : Type) := Except Fault α × Nat

namespace Reader

def ofText (input : Text) : Reader := ⟨input, 0⟩

/-- What lies ahead; nothing does past the end. -/
def rest (r : Reader) : Text := r.input.drop r.cursor.toNat

def advance (r : Reader) (n : Nat) : Reader := { r with cursor := r.cursor + n }

@[simp] theorem advance_input (r : Reader) (n : Nat) : (r.advance n).input = r.input := rfl

@[simp] theorem advance_cursor (r : Reader) (n : Nat) : (r.advance n).cursor = r.cursor + n := rfl

@[simp] theorem advance_zero (r : Reader) : r.advance 0 = r := by
  cases r; simp [advance]

@[simp] theorem advance_advance (r : Reader) (m n : Nat) :
    (r.advance m).advance n = r.advance (m + n) := by
  simp [advance]; omega

def remainingLength (r : Reader) : Int := r.input.length - r.cursor

/-- Whether `n` more bytes lie ahead. -/
def canRead (r : Reader) (n : Int) : Bool := r.cursor + n ≤ r.input.length

/-- The byte at an offset from the cursor. Just past the end stands a NUL. -/
def peek (r : Reader) (offset : Int) : UInt8 :=
  if r.cursor + offset < 0 then Byte.nul else (r.input[(r.cursor + offset).toNat]?).getD Byte.nul

/-- Whether the cursor is at the end or at a separator, where a token may end. -/
def atBoundary (r : Reader) : Bool := !r.canRead 1 || r.peek 0 == separator

/-- What lies before the cursor; the whole input when the cursor is past it. -/
def before (r : Reader) : Text := r.input.first r.cursor

/-- What lies ahead, for a cursor inside the input. -/
def remaining (r : Reader) : Except Fault Text :=
  match r.input.slice? r.cursor (-1) with
  | some t => .ok t
  | none => .error .outOfRange

/-- A syntax error at the cursor. -/
def error (r : Reader) (cause : Cause) : SyntaxError := ⟨cause, some (r.input, r.cursor)⟩

def reject (r : Reader) (cause : Cause) : Fault := .rejected (r.error cause)

def skipBlank (r : Reader) : Reader := r.advance (r.rest.takeWhile Byte.isBlank).length

/-- The bytes that a number may be made of. -/
def allowedInNumber (c : UInt8) : Bool := Byte.isDigit c || c == Byte.dot || c == Byte.minus

def isQuote (c : UInt8) : Bool := c == Byte.quote || c == Byte.apostrophe

/-- The bytes that need no quotes around them. -/
def allowedUnquoted (c : UInt8) : Bool :=
  Byte.isDigit c || Byte.isUpper c || Byte.isLower c || c == Byte.underscore || c == Byte.minus ||
    c == Byte.dot || c == Byte.plus

/-- The longest run of bytes of a class, for a cursor inside the input. -/
def readWhile (p : UInt8 → Bool) (r : Reader) : Reading Text :=
  if 0 ≤ r.cursor ∧ r.cursor ≤ r.input.length then
    let t := r.rest.takeWhile p
    (.ok t, t.length)
  else (.error .outOfRange, 0)

/-- The run of number bytes ahead, which must denote a number as a whole. A refused number leaves
the cursor where it starts. -/
def readNumber (kind : NumberKind) (r : Reader) : Reading Number :=
  match r.readWhile allowedInNumber with
  | (.ok [], n) => (.error ((r.advance n).reject (.expectedNumber kind)), n)
  | (.ok t, n) =>
    match kind.read? t with
    | some x => (.ok x, n)
    | none => (.error (r.reject (.invalidNumber kind t)), 0)
  | (.error e, n) => (.error e, n)

def readUnquoted (r : Reader) : Reading Text := r.readWhile allowedUnquoted

/-- How a quoted text ends: with its quote, at a backslash before a byte that needs none, or not at
all. The first two say how many bytes lead up to that. -/
inductive Quoted
  | closed (content : Text) (length : Nat)
  | badEscape (found : UInt8) (length : Nat)
  | unclosed
deriving DecidableEq, Repr

namespace Quoted

/-- The same end with more content before it. -/
def after (c : UInt8) (bytes : Nat) : Quoted → Quoted
  | closed content length => closed (c :: content) (length + bytes)
  | badEscape found length => badEscape found (length + bytes)
  | unclosed => unclosed

/-- Looks for the closing quote. A backslash stands before a quote or a backslash that is meant
literally. -/
def scan (close : UInt8) : Text → Quoted
  | [] => unclosed
  | c :: rest =>
    if c = Byte.backslash then
      match rest with
      | [] => unclosed
      | d :: more =>
        if d = close ∨ d = Byte.backslash then (scan close more).after d 2 else badEscape d 1
    else if c = close then closed [] 1
    else (scan close rest).after c 1

theorem scan_close {close : UInt8} (h : close ≠ Byte.backslash) (rest : Text) :
    scan close (close :: rest) = closed [] 1 := by
  rw [scan.eq_def]; exact (if_neg h).trans (if_pos rfl)

theorem scan_plain {close c : UInt8} (hb : c ≠ Byte.backslash) (hc : c ≠ close) (rest : Text) :
    scan close (c :: rest) = (scan close rest).after c 1 := by
  rw [scan.eq_def]; exact (if_neg hb).trans (if_neg hc)

theorem scan_escaped {close d : UInt8} (h : d = close ∨ d = Byte.backslash) (rest : Text) :
    scan close (Byte.backslash :: d :: rest) = (scan close rest).after d 2 := by
  rw [scan.eq_def]; exact (if_pos rfl).trans (if_pos h)

theorem scan_badEscape {close d : UInt8} (h : ¬(d = close ∨ d = Byte.backslash)) (rest : Text) :
    scan close (Byte.backslash :: d :: rest) = badEscape d 1 := by
  rw [scan.eq_def]; exact (if_pos rfl).trans (if_neg h)

end Quoted

/-- The text up to an end byte, which is passed over too. A bad escape stops at the byte after the
backslash, a missing end at the end of the input. -/
def readUntil (close : UInt8) (r : Reader) : Reading Text :=
  match Quoted.scan close r.rest with
  | .closed content n => (.ok content, n)
  | .badEscape found n => (.error ((r.advance n).reject (.invalidEscape found)), n)
  | .unclosed => (.error ((r.advance r.rest.length).reject .unclosedQuote), r.rest.length)

/-- Reads on behind `n` bytes. -/
def continueAfter {α : Type} (r : Reader) (n : Nat) (next : Reader → Reading α) : Reading α :=
  let (outcome, m) := next (r.advance n)
  (outcome, n + m)

/-- A text in quotes. Nothing ahead counts as the empty text. -/
def readQuoted (r : Reader) : Reading Text :=
  if !r.canRead 1 then (.ok [], 0)
  else if isQuote (r.peek 0) then r.continueAfter 1 (readUntil (r.peek 0))
  else (.error (r.reject .expectedQuote), 0)

/-- A text in quotes, or a run of bytes that need none. -/
def readString (r : Reader) : Reading Text :=
  if !r.canRead 1 then (.ok [], 0)
  else if isQuote (r.peek 0) then r.continueAfter 1 (readUntil (r.peek 0))
  else r.readUnquoted

/-- One of the words `true` and `false`, in quotes or not. Another word is refused at its start,
an empty one behind it. -/
def readBool (r : Reader) : Reading Bool :=
  match r.readString with
  | (.ok t, n) =>
    if t = [] then (.error ((r.advance n).reject .expectedBool), n)
    else if t = text "true" then (.ok true, n)
    else if t = text "false" then (.ok false, n)
    else (.error (r.reject (.invalidBool t)), 0)
  | (.error e, n) => (.error e, n)

/-- One given byte. -/
def expect (c : UInt8) (r : Reader) : Reading Unit :=
  if r.canRead 1 && r.peek 0 == c then (.ok (), 1)
  else (.error (r.reject (.expectedSymbol c)), 0)

end Reader

end CommandTree
