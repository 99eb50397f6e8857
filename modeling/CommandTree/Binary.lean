import CommandTree.Numeral

/-!
Binary floating-point numbers, computed in exact integer arithmetic. A number is its sign and the
rest of its bits read as a natural number; that number grows with the absolute value, so rounding,
overflow and comparison are all statements about it.
-/

namespace CommandTree

def twoTo (n : Nat) : Nat := Nat.pow 2 n

def tenTo (n : Nat) : Nat := Nat.pow 10 n

/-- How many bits hold the fraction and the exponent. -/
structure BinaryFormat where
  fractionBits : Nat
  exponentBits : Nat
deriving DecidableEq, Repr

namespace BinaryFormat

def single : BinaryFormat := ⟨23, 8⟩

def double : BinaryFormat := ⟨52, 11⟩

/-- The power of two that the smallest positive number is. -/
def least (f : BinaryFormat) : Int := 2 - twoTo (f.exponentBits - 1) - f.fractionBits

/-- The magnitude of infinity; above it stand the values that are no number. -/
def infinite (f : BinaryFormat) : Nat := (twoTo f.exponentBits - 1) * twoTo f.fractionBits

end BinaryFormat

structure Binary (f : BinaryFormat) where
  negative : Bool
  magnitude : Nat
deriving DecidableEq, Repr, Inhabited

namespace Binary

variable {f : BinaryFormat}

def zero : Binary f := ⟨false, 0⟩

def infinity (negative : Bool) : Binary f := ⟨negative, f.infinite⟩

/-- What is no number, with as much of a payload as there is room for. -/
def nan (negative : Bool) (payload : Nat) : Binary f :=
  let quiet := twoTo (f.fractionBits - 1)
  ⟨negative, f.infinite + quiet + payload % quiet⟩

/-- The finite number of greatest absolute value. -/
def greatest (negative : Bool) : Binary f := ⟨negative, f.infinite - 1⟩

def isNaN (x : Binary f) : Bool := f.infinite < x.magnitude

def isFinite (x : Binary f) : Bool := x.magnitude < f.infinite

/-- All bits of a number, the sign first. -/
def bits (x : Binary f) : Nat :=
  (if x.negative then twoTo (f.fractionBits + f.exponentBits) else 0) + x.magnitude

/-- Orders the numbers by value; both zeros have key zero. -/
def key (x : Binary f) : Int := if x.negative then -(x.magnitude : Int) else x.magnitude

/-- The order of the values; whatever is no number is not comparable. -/
def lt (x y : Binary f) : Bool := !x.isNaN && !y.isNaN && x.key < y.key

/-- Equality of the values, so that the two zeros are equal. -/
def equal (x y : Binary f) : Bool := !x.isNaN && !y.isNaN && x.key = y.key

/-- A finite number is `± significand · 2 ^ exponent`. -/
def significand (x : Binary f) : Nat :=
  let b := twoTo f.fractionBits
  if x.magnitude < b then x.magnitude else b + x.magnitude % b

def exponent (x : Binary f) : Int :=
  f.least + (x.magnitude / twoTo f.fractionBits - 1 : Nat)

/-- The quotient of two natural numbers rounded to the nearest whole number, a half to the even
neighbour. -/
def divideEven (n d : Nat) : Nat :=
  let q := n / d
  let r := n % d
  if 2 * r < d then q else if d < 2 * r then q + 1 else q + q % 2

/-- The fraction `n / d` divided by a power of two. -/
def scale (n d : Nat) (power : Int) : Nat × Nat :=
  if 0 ≤ power then (n, d * twoTo power.toNat) else (n * twoTo (-power).toNat, d)

/-- The number nearest to `± n / d`, ties to the even significand. Too large a fraction gives
infinity. -/
def ofFraction (negative : Bool) (n d : Nat) : Binary f :=
  if n = 0 then ⟨negative, 0⟩
  else
    let low := max f.least ((n.log2 : Int) - d.log2 - 1 - f.fractionBits)
    let (a, b) := scale n d low
    let power := if a < twoTo (f.fractionBits + 1) * b then low else low + 1
    let (a, b) := scale n d power
    let magnitude := (power - f.least).toNat * twoTo f.fractionBits + divideEven a b
    ⟨negative, min magnitude f.infinite⟩

/-- The number nearest to a decimal. Powers of ten beyond every format are not computed: a power of
ten has more than three and less than four times as many bits as zeros. -/
def ofDecimal (x : Decimal.Scaled) : Binary f :=
  let bits := x.digits.log2
  if x.digits = 0 then ⟨x.negative, 0⟩
  else if twoTo f.exponentBits < x.exponent + bits / 4 then infinity x.negative
  else if x.exponent + bits / 3 < -(twoTo f.exponentBits : Int) - f.fractionBits then ⟨x.negative, 0⟩
  else if 0 ≤ x.exponent then ofFraction x.negative (x.digits * tenTo x.exponent.toNat) 1
  else ofFraction x.negative x.digits (tenTo (-x.exponent).toNat)

/-- The number nearest to `± digits · 2 ^ exponent`. Powers beyond every format are not computed. -/
def ofPower (negative : Bool) (digits : Nat) (exponent : Int) : Binary f :=
  let size := exponent + digits.log2
  if digits = 0 then ⟨negative, 0⟩
  else if twoTo f.exponentBits < size then infinity negative
  else if size < -(twoTo f.exponentBits : Int) - f.fractionBits then ⟨negative, 0⟩
  else if 0 ≤ exponent then ofFraction negative (digits * twoTo exponent.toNat) 1
  else ofFraction negative digits (twoTo (-exponent).toNat)

/-- The payload of what is no number. -/
def payload (x : Binary f) : Nat := x.magnitude - f.infinite - twoTo (f.fractionBits - 1)

/-- The nearest number of another format. A payload keeps its leading bits. -/
def convert {g : BinaryFormat} (x : Binary f) : Binary g :=
  if x.isNaN then nan x.negative (x.payload * twoTo g.fractionBits / twoTo f.fractionBits)
  else if !x.isFinite then infinity x.negative
  else ofPower x.negative x.significand x.exponent

/-- A number typed in a command: a plain decimal that neither overflows nor vanishes. -/
def read? (t : Text) : Option (Binary f) :=
  match Decimal.readPlain? t with
  | none => none
  | some x =>
    let y : Binary f := ofDecimal x
    if !y.isFinite || (y.magnitude = 0 && x.digits ≠ 0) then none else some y

/-- The number that a numeral denotes, rounded to the nearest. -/
def ofNumeral : Numeral → Binary f
  | .decimal x => ofDecimal x
  | .hexadecimal negative digits exponent => ofPower negative digits exponent
  | .infinite negative => infinity negative
  | .notANumber negative payload => nan negative payload

end Binary

abbrev Single := Binary .single

abbrev Double := Binary .double

end CommandTree
