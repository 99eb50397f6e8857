import CommandTree.Context

/-!
Where in a chain of frames a cursor stands: below which node the token at the cursor is looked up,
and where that token begins.
-/

namespace CommandTree

structure Place where
  parent : Option NodeId
  start : Int
deriving DecidableEq, Repr

namespace Place

def notFound : Fault := .logic (text "Can't find node before cursor")

/-- The place inside a frame: before the first matched node that touches the cursor, or at the
frame's start below its last node. -/
def within (start cursor : Int) : Option NodeId → List Match → Except Fault Place
  | previous, m :: rest =>
    if m.span.start ≤ cursor ∧ cursor ≤ m.span.stop then .ok ⟨previous, m.span.start⟩
    else within start cursor (some m.node) rest
  | none, [] => .error notFound
  | some p, [] => .ok ⟨some p, start⟩

/-- The place behind the last frame: a new token, one byte after the last matched node. -/
def behind {S C M : Type} (s : Segment S C M) : Place :=
  match s.frame.matched.getLast? with
  | some m => ⟨some m.node, m.span.stop + 1⟩
  | none => ⟨s.frame.root, s.frame.span.start⟩

/-- A frame that ends before the cursor leaves it to the next one. -/
def locate {S C M : Type} (cursor : Int) :
    Segment S C M → List (Segment S C M) → Except Fault Place
  | s, [] =>
    if cursor < s.frame.span.start then .error notFound
    else if s.frame.span.stop < cursor then .ok (behind s)
    else within s.frame.span.start cursor s.frame.root s.frame.matched
  | s, next :: rest =>
    if cursor < s.frame.span.start then .error notFound
    else if s.frame.span.stop < cursor then locate cursor next rest
    else within s.frame.span.start cursor s.frame.root s.frame.matched

end Place

/-- The place of a cursor in a chain. -/
def Chain.locate {S C M : Type} (c : Chain S C M) (cursor : Int) : Except Fault Place :=
  Place.locate cursor c.first c.later

end CommandTree
