import CommandTree.Tree

/-!
A grammar is what a parse works on: the tree of commands, and the node that every redirect means.
Redirects may lead anywhere, also back to where they come from.
-/

namespace CommandTree

structure Grammar (S C M : Type) where
  root : Tree S C M
  /-- The node with an identity. A redirect to nothing means a node without children. -/
  resolve : NodeId → Tree S C M

/-- A parse that came to rest: the chain of frames, the reader where it stopped, and the errors of
the nodes tried there. -/
structure Parse (S C M : Type) where
  chain : Chain S C M
  reader : Reader
  errors : List (NodeId × SyntaxError)

namespace Parse

variable {S C M : Type}

/-- Whether the whole input was used up. -/
def isDone (p : Parse S C M) : Bool := !p.reader.canRead 1

def isClean (p : Parse S C M) : Bool := p.errors.isEmpty

/-- Using up the input counts first, and then the absence of errors. -/
def better (p q : Parse S C M) : Bool :=
  if p.isDone = q.isDone then p.isClean && !q.isClean else p.isDone

/-- The first of the best parses of a list. -/
def best (p : Parse S C M) (ps : List (Parse S C M)) : Parse S C M :=
  ps.foldl (fun b q => if q.better b then q else b) p

/-- The error that got furthest into the input, the first of them on a tie. -/
def deepest? (p : Parse S C M) : Option SyntaxError :=
  (p.errors.map Prod.snd).foldl (fun found e =>
    match found with
    | none => some e
    | some d => if d.cursor < e.cursor then some e else some d) none

/-- The same parse with more frames before its own. -/
def under (s : Segment S C M) (p : Parse S C M) : Parse S C M :=
  { p with chain := ⟨s, p.chain.all⟩ }

end Parse

/-- How far the children of a node have been explored: a redirect decides at once; otherwise there
are the errors of the children that did not match and the parses of those that did. -/
inductive Exploration (S C M : Type)
  | decided (parse : Parse S C M)
  | pending (errors : List (NodeId × SyntaxError)) (parses : List (Parse S C M))

namespace Exploration

variable {S C M : Type}

def withError (id : NodeId) (e : SyntaxError) : Exploration S C M → Exploration S C M
  | decided p => decided p
  | pending errors parses => pending ((id, e) :: errors) parses

def withParse (p : Parse S C M) : Exploration S C M → Exploration S C M
  | decided q => decided q
  | pending errors parses => pending errors (p :: parses)

/-- What becomes of the node: without any parse it is where the parse stops. -/
def conclude (s : Segment S C M) (r : Reader) : Exploration S C M → Parse S C M
  | decided p => p
  | pending errors [] => ⟨⟨s, []⟩, r, errors⟩
  | pending _ (p :: ps) => p.best ps

end Exploration

/-- How many bytes lie ahead of a reader. -/
def Reader.ahead (r : Reader) : Nat := r.remainingLength.toNat

theorem Reader.ahead_advance_lt {r : Reader} {n : Nat} {m : Int}
    (h : (r.advance n).canRead m = true) (hm : 1 ≤ m) : (r.advance (n + 1)).ahead < r.ahead := by
  have h := of_decide_eq_true h
  simp only [Reader.advance_cursor, Reader.advance_input] at h
  simp only [Reader.ahead, Reader.remainingLength, Reader.advance_cursor, Reader.advance_input]
  omega

namespace Grammar

variable {S C M : Type}

mutual
/-- Parses on below a node. -/
def parseAt (g : Grammar S C M) (t : Tree S C M) (r : Reader) (s : Segment S C M) :
    Except Fault (Parse S C M) :=
  match g.explore (t.relevant r) r s with
  | .ok e => .ok (e.conclude s r)
  | .error f => .error f
termination_by (r.ahead, 1, 0)

/-- Tries children in turn. A child without redirect is followed when at least a separator and one
more byte come after it; a redirect is followed, and wins, as soon as a separator does. -/
def explore (g : Grammar S C M) (cs : List (Tree S C M)) (r : Reader) (s : Segment S C M) :
    Except Fault (Exploration S C M) :=
  match cs with
  | [] => .ok (.pending [] [])
  | c :: cs =>
    match c.eligible s.frame r with
    | .error f => .error f
    | .ok false => g.explore cs r s
    | .ok true =>
      match c.attempt r s with
      | .error e => (g.explore cs r s).map (·.withError c.id e)
      | .ok (s', n) =>
        match c.redirect with
        | some target =>
          if _ : (r.advance n).canRead 1 then
            let r' := r.advance (n + 1)
            match g.parseAt (g.resolve target) r' (.start s.frame.source (some target) r'.cursor) with
            | .ok p => .ok (.decided (p.under s'))
            | .error f => .error f
          else (g.explore cs r s).map (·.withParse ⟨⟨s', []⟩, r.advance n, []⟩)
        | none =>
          if _ : (r.advance n).canRead 2 then
            match g.parseAt c (r.advance (n + 1)) s' with
            | .ok p => (g.explore cs r s).map (·.withParse p)
            | .error f => .error f
          else (g.explore cs r s).map (·.withParse ⟨⟨s', []⟩, r.advance n, []⟩)
termination_by (r.ahead, 0, cs.length)
decreasing_by
  all_goals first
    | (apply Prod.Lex.left; exact Reader.ahead_advance_lt (by assumption) (by decide))
    | (apply Prod.Lex.right; apply Prod.Lex.right; simp)
end

theorem parseAt_eq (g : Grammar S C M) (t : Tree S C M) (r : Reader) (s : Segment S C M) :
    g.parseAt t r s = (g.explore (t.relevant r) r s).map (·.conclude s r) := by
  rw [parseAt]; cases g.explore (t.relevant r) r s <;> rfl

@[simp] theorem explore_nil (g : Grammar S C M) (r : Reader) (s : Segment S C M) :
    g.explore [] r s = .ok (.pending [] []) := by
  rw [explore]

/-- Parses what lies ahead of a reader. -/
def parse (g : Grammar S C M) (source : S) (r : Reader) : Except Fault (Parse S C M) :=
  g.parseAt g.root r (.start source (some g.root.id) r.cursor)

end Grammar

end CommandTree
