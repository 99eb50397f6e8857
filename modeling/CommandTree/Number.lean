import CommandTree.Binary.Shortest

/-!
The four kinds of numbers that a command can take, their limits, and how each is read, written
and compared.
-/

namespace CommandTree

inductive NumberKind
  | integer
  | long
  | float
  | double
deriving DecidableEq, Repr

/-- A number of one of the four kinds. -/
inductive Number
  | integer (value : Int)
  | long (value : Int)
  | float (value : Single)
  | double (value : Double)
deriving DecidableEq, Repr

namespace Number

def kind : Number → NumberKind
  | integer _ => .integer
  | long _ => .long
  | float _ => .float
  | double _ => .double

/-- The order inside one kind. -/
def lt : Number → Number → Bool
  | integer a, integer b => a < b
  | long a, long b => a < b
  | float a, float b => a.lt b
  | double a, double b => a.lt b
  | _, _ => false

/-- Equality of values inside one kind. -/
def equal : Number → Number → Bool
  | integer a, integer b => a = b
  | long a, long b => a = b
  | float a, float b => a.equal b
  | double a, double b => a.equal b
  | _, _ => false

def toText : Number → Text
  | integer a => Decimal.integer a
  | long a => Decimal.integer a
  | float a => a.toText
  | double a => a.toText

end Number

namespace NumberKind

/-- The word for the kind inside a sentence. -/
def noun : NumberKind → String
  | integer => "integer"
  | long => "long"
  | float => "float"
  | double => "double"

/-- The word for the kind at the head of a sentence. -/
def title : NumberKind → String
  | integer => "Integer"
  | long => "Long"
  | float => "Float"
  | double => "Double"

def lowest : NumberKind → Number
  | integer => .integer (-2147483648)
  | long => .long (-9223372036854775808)
  | float => .float (.greatest true)
  | double => .double (.greatest true)

def highest : NumberKind → Number
  | integer => .integer 2147483647
  | long => .long 9223372036854775807
  | float => .float (.greatest false)
  | double => .double (.greatest false)

/-- A whole number that fits into a two's complement word. -/
def readWord? (bits : Nat) (t : Text) : Option Int :=
  match Decimal.readInteger? t with
  | some i => if -(twoTo (bits - 1) : Int) ≤ i ∧ i < twoTo (bits - 1) then some i else none
  | none => none

/-- The number that a whole text denotes. -/
def read? : NumberKind → Text → Option Number
  | integer, t => (readWord? 32 t).map .integer
  | long, t => (readWord? 64 t).map .long
  | float, t => (Binary.read? t).map .float
  | double, t => (Binary.read? t).map .double

/-- A number of the kind as a definition gives it. A single-precision number is rounded by way of
double precision. -/
def ofText : NumberKind → Text → Number
  | integer, t => .integer (Numeral.readWhole t)
  | long, t => .long (Numeral.readWhole t)
  | float, t => .float (Binary.ofNumeral (Numeral.read t) : Double).convert
  | double, t => .double (Binary.ofNumeral (Numeral.read t))

theorem kind_of_read? {k : NumberKind} {t : Text} {n : Number} (h : k.read? t = some n) :
    n.kind = k := by
  cases k <;> simp only [read?, Option.map_eq_some_iff] at h <;>
    obtain ⟨_, _, rfl⟩ := h <;> rfl

@[simp] theorem kind_lowest (k : NumberKind) : k.lowest.kind = k := by cases k <;> rfl

@[simp] theorem kind_highest (k : NumberKind) : k.highest.kind = k := by cases k <;> rfl

end NumberKind

end CommandTree
