import CommandTree.Grammar
import CommandTree.Place

/-!
Completions at a cursor. The place of the cursor names the node whose children are asked; each of
those that the source may use makes suggestions for the input up to the cursor, and a child that
refuses with a syntax error makes none.
-/

namespace CommandTree.Grammar

variable {S C M : Type}

/-- The children that a source may use, each with the draft it is to fill. A place outside the input
leaves nothing to fill, which shows at the first of them. -/
def invited (source : S) (d : Except Fault Draft) :
    List (Tree S C M) → Except Fault (List (Tree S C M × Draft))
  | [] => .ok []
  | c :: cs =>
    match c.admits source, d with
    | .error f, _ => .error f
    | .ok false, _ => invited source d cs
    | .ok true, .error f => .error f
    | .ok true, .ok empty => (invited source d cs).map ((c, empty) :: ·)

/-- The suggestions of one node, none after a syntax error. -/
def offer (context : Context S) (t : Tree S C M) (d : Draft) : Except Fault Suggestions :=
  match t.suggest context d with
  | .error (.rejected _) => .ok .empty
  | outcome => outcome

/-- The suggestions of several nodes, in order. -/
def offers (context : Context S) :
    List (Tree S C M × Draft) → Except Fault (List Suggestions)
  | [] => .ok []
  | (t, d) :: rest =>
    match offer context t d with
    | .error f => .error f
    | .ok s => (offers context rest).map (s :: ·)

/-- Completes a parse at a cursor. -/
def complete (g : Grammar S C M) (p : Parse S C M) (cursor : Int) : Except Fault Suggestions := do
  let place ← p.chain.locate cursor
  let typed := p.reader.input.first cursor
  let outer := p.chain.first
  let children := (place.parent.map fun id => (g.resolve id).children).getD []
  let candidates ←
    invited outer.frame.source (Draft.ofInput typed (min place.start cursor)) children
  let lists ← offers (outer.context typed) candidates
  Suggestions.merge p.reader.input lists

end CommandTree.Grammar
