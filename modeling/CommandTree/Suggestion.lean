import CommandTree.Error
import CommandTree.Span

/-!
A suggestion is a text to put in the place of a span of the input. A list of suggestions is brought
to one span by widening each to the span of all, so that the texts can be compared and ordered.
-/

namespace CommandTree

/-- The outcome of cutting a text: a cut outside it is a fault. -/
def Text.cut (t : Text) (start count : Int) : Except Fault Text :=
  match t.slice? start count with
  | some s => .ok s
  | none => .error .outOfRange

structure Suggestion where
  span : Span
  text : Text
  tooltip : Option Text
  /-- The number that the text was made from, if it was. -/
  number : Option Int
deriving DecidableEq, Repr

namespace Suggestion

def ofText (span : Span) (text : Text) (tooltip : Option Text) : Suggestion :=
  ⟨span, text, tooltip, none⟩

def ofInteger (span : Span) (number : Int) (tooltip : Option Text) : Suggestion :=
  ⟨span, Decimal.integer number, tooltip, some number⟩

/-- Whether two suggestions say the same; where the text comes from does not count. -/
def same (a b : Suggestion) : Bool := a.span = b.span && a.text = b.text && a.tooltip = b.tooltip

/-- The input with the suggestion in its place. -/
def apply (s : Suggestion) (input : Text) : Except Fault Text :=
  if s.span.start = 0 ∧ s.span.stop = input.length then .ok s.text
  else if s.span.stop < input.length then do
    let tail ← input.cut s.span.stop (-1)
    .ok (input.first s.span.start ++ s.text ++ tail)
  else .ok (input.first s.span.start ++ s.text)

/-- The same suggestion for a wider span, with the bytes of the command that it now covers. -/
def widen (command : Text) (span : Span) (s : Suggestion) : Except Fault Suggestion :=
  if span = s.span then .ok s
  else do
    let before ← if span.start < s.span.start then
      command.cut span.start (s.span.start - span.start) else .ok []
    let after ← if s.span.stop < span.stop then
      command.cut s.span.stop (span.stop - s.span.stop) else .ok []
    .ok { s with span, text := before ++ s.text ++ after }

/-- The suggestions whose text no earlier one has. -/
def distinct : List Suggestion → List Suggestion
  | [] => []
  | s :: rest => s :: (distinct rest).filter fun t => t.text ≠ s.text

/-- The smallest span that covers all of a list of suggestions. -/
def hull (s : Suggestion) (rest : List Suggestion) : Span :=
  rest.foldl (fun span t => span.union t.span) s.span

end Suggestion

/-- Suggestions for one span. -/
structure Suggestions where
  span : Span
  list : List Suggestion
deriving DecidableEq, Repr

namespace Suggestions

def empty : Suggestions := ⟨.zero, []⟩

def isEmpty (s : Suggestions) : Bool := s.list.isEmpty

/-- Widens all suggestions to their common span, keeps the first of each text and sorts them. -/
def create (command : Text) : List Suggestion → Except Fault Suggestions
  | [] => .ok empty
  | s :: rest => do
    let span := Suggestion.hull s rest
    let widened ← (s :: rest).mapM (Suggestion.widen command span)
    .ok ⟨span, (Suggestion.distinct widened).mergeSort fun a b => !b.text.precedes a.text⟩

/-- Brings several lists together; a single one stays as it is. -/
def merge (command : Text) : List Suggestions → Except Fault Suggestions
  | [] => .ok empty
  | [s] => .ok s
  | ss => create command (ss.flatMap Suggestions.list)

end Suggestions

end CommandTree
