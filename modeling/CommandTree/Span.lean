import CommandTree.Text

/-!
A span is the half-open stretch of an input that a match or a completion covers. Its ends may be
any integers; only cutting a text asks whether they lie inside it.
-/

namespace CommandTree

structure Span where
  start : Int
  stop : Int
deriving DecidableEq, Repr, Inhabited

namespace Span

/-- The span of nothing at the very beginning, which an empty list of completions carries. -/
def zero : Span := ⟨0, 0⟩

/-- The empty span at one position. -/
def point (position : Int) : Span := ⟨position, position⟩

def length (s : Span) : Int := s.stop - s.start

def isEmpty (s : Span) : Bool := s.start = s.stop

/-- The smallest span that covers both. -/
def union (a b : Span) : Span := ⟨min a.start b.start, max a.stop b.stop⟩

/-- The part of a text that a span covers: up to the end when its length is negative, and nothing
when it starts outside. -/
def get? (s : Span) (t : Text) : Option Text := t.slice? s.start s.length

@[simp] theorem isEmpty_iff (s : Span) : s.isEmpty = true ↔ s.start = s.stop := by
  simp [isEmpty]

theorem union_comm (a b : Span) : a.union b = b.union a := by
  simp only [union, mk.injEq]; omega

theorem union_assoc (a b c : Span) : (a.union b).union c = a.union (b.union c) := by
  simp only [union, mk.injEq]; omega

@[simp] theorem union_self (a : Span) : a.union a = a := by simp [union]

end Span

end CommandTree
