import CommandTree.Binary

/-!
The text of a binary number: the fewest decimal digits that no other number of the format is
nearer to, and of those the closest to the number itself.
-/

namespace CommandTree.Binary

variable {f : BinaryFormat}

/-- How many digits a natural number has. -/
def digitCount (n : Nat) : Nat := (Decimal.natural n).length

/-- The power of ten that the leading digit of `n / d` stands for, for positive `n` and `d`. -/
def leadingPower (n d : Nat) : Int :=
  if d ≤ n then (digitCount (n / d) : Int) - 1
  else -(digitCount ((d + n - 1) / n - 1) : Int)

/-- Among the two multiples of `10 ^ power` beside a positive number, the nearest that rounds to
the number: the multiples that do lie between the midpoints to its neighbours, and at a midpoint
when the significand is even. An exact tie goes to the even multiple. -/
def onGrid? (x : Binary f) (power : Int) : Option Nat :=
  let m := x.significand
  let closed := m % 2 = 0
  let below := if m = twoTo f.fractionBits ∧ f.least < x.exponent then 1 else 2
  let (two, half) := scale 1 1 (2 - x.exponent)
  let (ten, tenth) := if 0 ≤ power then (tenTo power.toNat, 1) else (1, tenTo (-power).toNat)
  let unit := two * tenth
  let step := ten * half
  let here := 4 * m * unit
  let inside (c : Nat) : Bool :=
    if closed then (4 * m - below) * unit ≤ c * step && c * step ≤ (4 * m + 2) * unit
    else (4 * m - below) * unit < c * step && c * step < (4 * m + 2) * unit
  let c := here / step
  match inside c, inside (c + 1) with
  | false, false => none
  | true, false => some c
  | false, true => some (c + 1)
  | true, true =>
    let lower := here - c * step
    let upper := (c + 1) * step - here
    some (if lower < upper then c else if upper < lower then c + 1 else c + c % 2)

/-- Moves trailing zeros into the power of ten. -/
def trim : Nat → Nat → Int → Nat × Int
  | 0, c, power => (c, power)
  | fuel + 1, c, power => if c ≠ 0 ∧ c % 10 = 0 then trim fuel (c / 10) (power + 1) else (c, power)

/-- The shortest decimal of a positive finite number, as digits and a power of ten. Seventeen
digits suffice for the widest format. -/
def shortest (x : Binary f) : Nat × Int :=
  let (half, two) := scale x.significand 1 (-x.exponent)
  let lead := leadingPower half two
  let grids : List Int := (List.range 17).map fun (n : Nat) => lead - n
  let found := grids.findSome? fun power => (x.onGrid? power).map fun c => (c, power)
  let (c, power) := found.getD (0, 0)
  trim 20 c power

/-- The exponents for which a number is written out by position. -/
def positional (exponent : Int) : Bool := -4 ≤ exponent && exponent < 16

/-- A sign and at least two digits. -/
def powerText (exponent : Int) : Text :=
  let digits := Decimal.natural exponent.natAbs
  let sign := if exponent < 0 then Byte.minus else Byte.plus
  sign :: (List.replicate (2 - digits.length) 48 ++ digits)

/-- Writes digits times a power of ten: by position for the exponents of `positional`, else as a
mantissa and a power of ten. No point stands at the end. -/
def layout (digits : Text) (power : Int) : Text :=
  let exponent := (digits.length : Int) - 1 + power
  let zeros (n : Int) : Text := List.replicate n.toNat 48
  if positional exponent then
    if 0 ≤ power then digits ++ zeros power
    else if 0 ≤ exponent then
      digits.take (exponent + 1).toNat ++ Byte.dot :: digits.drop (exponent + 1).toNat
    else text "0." ++ zeros (-exponent - 1) ++ digits
  else
    let tail := match digits.tail with
      | [] => []
      | ds => Byte.dot :: ds
    digits.take 1 ++ tail ++ text "e" ++ powerText exponent

/-- The text of an absolute value. -/
def unsignedText (x : Binary f) : Text :=
  if x.isNaN then text "nan"
  else if !x.isFinite then text "inf"
  else if x.magnitude = 0 then text "0"
  else
    let (c, power) := x.shortest
    layout (Decimal.natural c) power

/-- The text of a number. Every negative one has a sign, also a zero and what is no number. -/
def toText (x : Binary f) : Text :=
  if x.negative then Byte.minus :: x.unsignedText else x.unsignedText

end CommandTree.Binary
