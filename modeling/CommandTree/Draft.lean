import CommandTree.Suggestion

/-!
A draft collects suggestions for the token that starts at one position of an input. They all reach
from there to the end of the input.
-/

namespace CommandTree

structure Draft where
  input : Text
  /-- The input as completions are matched against it, usually in lower case. -/
  lower : Text
  start : Nat
  entries : List Suggestion
deriving Repr

namespace Draft

/-- An empty draft. The position must lie in the input and in its lower-case form. -/
def openAt (input lower : Text) (start : Int) : Except Fault Draft :=
  if 0 ≤ start ∧ start ≤ input.length ∧ start ≤ lower.length then
    .ok ⟨input, lower, start.toNat, []⟩
  else .error .outOfRange

/-- An empty draft that matches in lower case. -/
def ofInput (input : Text) (start : Int) : Except Fault Draft := openAt input input.lower start

/-- What has been typed of the token. -/
def remaining (d : Draft) : Text := d.input.drop d.start

def remainingLower (d : Draft) : Text := d.lower.drop d.start

def span (d : Draft) : Span := ⟨d.start, d.input.length⟩

/-- A text to suggest, unless it is just what has been typed. -/
def suggest (d : Draft) (t : Text) (tooltip : Option Text) : Draft :=
  if t = d.remaining then d
  else { d with entries := d.entries ++ [.ofText d.span t tooltip] }

/-- A number to suggest. -/
def suggestInteger (d : Draft) (number : Int) (tooltip : Option Text) : Draft :=
  { d with entries := d.entries ++ [.ofInteger d.span number tooltip] }

/-- Takes over the suggestions of another draft. -/
def add (d other : Draft) : Draft := { d with entries := d.entries ++ other.entries }

/-- An empty draft on the same input at another position. -/
def offset (d : Draft) (start : Int) : Except Fault Draft := openAt d.input d.lower start

def restart (d : Draft) : Draft := { d with entries := [] }

def build (d : Draft) : Except Fault Suggestions := Suggestions.create d.input d.entries

end Draft

end CommandTree
