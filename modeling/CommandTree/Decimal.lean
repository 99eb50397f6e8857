import CommandTree.Text

/-!
Decimal texts of numbers: whole numbers are written and read here, and texts with a point are read
into an exact decimal, which the binary formats then round.
-/

namespace CommandTree.Decimal

def digit (n : Nat) : UInt8 := 48 + n.toUInt8

theorem digit_toNat {n : Nat} (h : n < 10) : (digit n).toNat = 48 + n := by
  simp only [digit, UInt8.toNat_add, UInt8.toNat_ofNat', Nat.toUInt8]
  simp
  omega

theorem isDigit_digit {n : Nat} (h : n < 10) : Byte.isDigit (digit n) = true := by
  have := digit_toNat h
  simp [Byte.isDigit, UInt8.le_iff_toNat_le, this]
  omega

/-- The digits of a natural number, without leading zeros. -/
def natural (n : Nat) : Text :=
  if n < 10 then [digit n] else natural (n / 10) ++ [digit (n % 10)]

theorem natural_ne_nil (n : Nat) : natural n ≠ [] := by
  rw [natural]; split <;> simp

theorem all_isDigit_natural (n : Nat) : (natural n).all Byte.isDigit = true := by
  induction n using Nat.strongRecOn with
  | ind n ih =>
    rw [natural]
    split
    · next h => simp [isDigit_digit h]
    · next h =>
      have hm : n % 10 < 10 := Nat.mod_lt _ (by decide)
      rw [List.all_append, ih _ (by omega)]
      simp [isDigit_digit hm]

/-- A minus sign, where needed, and the digits. -/
def integer (i : Int) : Text :=
  if i < 0 then Byte.minus :: natural i.natAbs else natural i.natAbs

/-- The number that a row of digits denotes; no digits denote zero. -/
def value (digits : Text) : Nat := digits.foldl (fun n c => 10 * n + (c.toNat - 48)) 0

theorem value_append (a b : Text) :
    value (a ++ b) = b.foldl (fun n c => 10 * n + (c.toNat - 48)) (value a) := by
  simp [value]

theorem value_natural (n : Nat) : value (natural n) = n := by
  induction n using Nat.strongRecOn with
  | ind n ih =>
    rw [natural]
    split
    · next h => simp [value, digit_toNat h]
    · next h =>
      have hm : n % 10 < 10 := Nat.mod_lt _ (by decide)
      rw [value_append, ih _ (by omega)]
      simp [digit_toNat hm]
      omega

/-- At least one digit and nothing else. -/
def readNatural? (t : Text) : Option Nat :=
  if t ≠ [] ∧ t.all Byte.isDigit then some (value t) else none

theorem readNatural?_natural (n : Nat) : readNatural? (natural n) = some n := by
  have h : natural n ≠ [] ∧ (natural n).all Byte.isDigit = true :=
    ⟨natural_ne_nil n, all_isDigit_natural n⟩
  rw [readNatural?, if_pos h, value_natural]

/-- A natural number, perhaps after a minus sign. -/
def readInteger? : Text → Option Int
  | [] => none
  | c :: rest =>
    if c = Byte.minus then (readNatural? rest).map fun (n : Nat) => -(n : Int)
    else (readNatural? (c :: rest)).map fun (n : Nat) => (n : Int)

theorem readInteger?_integer (i : Int) : readInteger? (integer i) = some i := by
  unfold integer
  split
  · simp only [readInteger?, if_true, readNatural?_natural, Option.map_some, Option.some.injEq]
    omega
  · cases h : natural i.natAbs with
    | nil => exact absurd h (natural_ne_nil _)
    | cons c rest =>
      have hd := all_isDigit_natural i.natAbs
      rw [h, List.all_cons, Bool.and_eq_true] at hd
      have hc : c ≠ Byte.minus := by
        rintro rfl
        exact absurd hd.1 (by decide)
      rw [readInteger?, if_neg hc, ← h, readNatural?_natural, Option.map_some, Option.some.injEq]
      omega

/-- The number `± digits · 10 ^ exponent`. A zero keeps its sign. -/
structure Scaled where
  negative : Bool
  digits : Nat
  exponent : Int
deriving DecidableEq, Repr

/-- Splits off a minus sign. -/
def unsign (t : Text) : Bool × Text :=
  match t with
  | c :: rest => if c = Byte.minus then (true, rest) else (false, t)
  | [] => (false, [])

/-- The digits of a class on the two sides of a point that may be missing, and what follows them. At
least one digit has to stand there. -/
def readPointed? (digit : UInt8 → Bool) (t : Text) : Option (Text × Text × Text) :=
  let whole := t.takeWhile digit
  let rest := t.dropWhile digit
  let (part, rest) := match rest with
    | c :: after =>
      if c = Byte.dot then (after.takeWhile digit, after.dropWhile digit) else ([], rest)
    | [] => ([], [])
  if whole = [] ∧ part = [] then none else some (whole, part, rest)

/-- A plain decimal: perhaps a minus sign, then digits with at most one point among or beside
them, up to the end of the text. -/
def readPlain? (t : Text) : Option Scaled :=
  let (negative, t) := unsign t
  match readPointed? Byte.isDigit t with
  | some (whole, part, []) => some ⟨negative, value (whole ++ part), -(part.length : Int)⟩
  | _ => none

end CommandTree.Decimal
