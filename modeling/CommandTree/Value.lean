import CommandTree.Error

/-!
The values that arguments take. An argument may also be bound to nothing, which is no value of any
kind but the empty one. Asking for a value as one of another kind is a fault that names both kinds.
-/

namespace CommandTree

inductive Value
  | bool (value : Bool)
  | number (value : Number)
  | string (value : Text)
  /-- Nothing at all. -/
  | empty
deriving DecidableEq, Repr

/-- What kind of value an argument holds. -/
inductive ValueKind
  | bool
  | number (kind : NumberKind)
  | string
  | empty
deriving DecidableEq, Repr

namespace Value

def kind : Value → ValueKind
  | bool _ => .bool
  | number n => .number n.kind
  | string _ => .string
  | empty => .empty

def bool? : Value → Option Bool
  | bool b => some b
  | _ => none

def integer? : Value → Option Int
  | number (.integer i) => some i
  | _ => none

def long? : Value → Option Int
  | number (.long i) => some i
  | _ => none

def float? : Value → Option Single
  | number (.float x) => some x
  | _ => none

def double? : Value → Option Double
  | number (.double x) => some x
  | _ => none

def string? : Value → Option Text
  | string t => some t
  | _ => none

/-- The value itself, if it is of a kind. -/
def ofKind? (kind : ValueKind) (v : Value) : Option Value := if v.kind = kind then some v else none

end Value

/-- The name of the kind in messages about a mismatch. -/
def ValueKind.name : ValueKind → Text
  | bool => text "bool"
  | number .integer => text "int"
  | number .long => text "long"
  | number .float => text "float"
  | number .double => text "double"
  | string =>
    text "std::__cxx11::basic_string<char, std::char_traits<char>, std::allocator<char> >"
  | empty => text "void"

end CommandTree
