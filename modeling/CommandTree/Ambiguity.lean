import CommandTree.Tree.Address

/-!
Ambiguities: two children of one node of which the second accepts examples of the first. They are
looked for at every node of a tree, for every ordered pair of its children.
-/

namespace CommandTree

structure Ambiguity (S C M : Type) where
  parent : Tree S C M
  child : Tree S C M
  sibling : Tree S C M
  /-- The examples of the child that the sibling accepts, in increasing order. -/
  inputs : List Text

namespace Ambiguity

variable {S C M : Type}

/-- The inputs of a list that a node accepts. -/
def acceptedBy (t : Tree S C M) : List Text → Except Fault (List Text)
  | [] => .ok []
  | input :: rest =>
    match t.accepts input with
    | .error f => .error f
    | .ok true => (acceptedBy t rest).map (input :: ·)
    | .ok false => acceptedBy t rest

/-- What is found out about a pair of children: nothing, an ambiguity, or a fault. -/
def between (parent child sibling : Tree S C M) : List (Except Fault (Ambiguity S C M)) :=
  match acceptedBy sibling child.examples with
  | .error f => [.error f]
  | .ok [] => []
  | .ok inputs => [.ok ⟨parent, child, sibling, Text.sortedSet inputs⟩]

mutual
/-- What is found out at the nodes of a tree: for each child in turn first its pairs with all
siblings, then its own tree. -/
def search : Tree S C M → List (Except Fault (Ambiguity S C M))
  | .node id traits cs => searchAmong (.node id traits cs) [] cs

/-- The same from some child on, given the siblings before it. -/
def searchAmong (parent : Tree S C M) (before : List (Tree S C M)) :
    List (Tree S C M) → List (Except Fault (Ambiguity S C M))
  | [] => []
  | c :: cs =>
    (before ++ cs).flatMap (between parent c) ++ search c ++ searchAmong parent (before ++ [c]) cs
end

/-- What comes before the first fault, and that fault. -/
def untilFault : List (Except Fault (Ambiguity S C M)) → List (Ambiguity S C M) × Except Fault Unit
  | [] => ([], .ok ())
  | .error f :: _ => ([], .error f)
  | .ok a :: rest =>
    let (found, ending) := untilFault rest
    (a :: found, ending)

/-- All ambiguities of a tree, up to the first fault of an argument type. -/
def ofTree (t : Tree S C M) : List (Ambiguity S C M) × Except Fault Unit := untilFault (search t)

end Ambiguity

end CommandTree
