import CommandTree.Tree

/-!
Finding nodes in a tree: all of them in depth-first order, one by its identity, one by positions, and
the way between a node and the names that lead to it.
-/

namespace CommandTree.Tree

variable {S C M : Type}

mutual
/-- The tree and all trees in it, every node before its children, with their depths. -/
def outline (depth : Nat) : Tree S C M → List (Nat × Tree S C M)
  | node id traits cs => (depth, node id traits cs) :: outlineAll (depth + 1) cs

def outlineAll (depth : Nat) : List (Tree S C M) → List (Nat × Tree S C M)
  | [] => []
  | c :: cs => outline depth c ++ outlineAll depth cs
end

/-- The tree and all trees in it. -/
def subtrees (t : Tree S C M) : List (Tree S C M) := (t.outline 0).map Prod.snd

/-- The node with an identity, anywhere in a list of trees. -/
def findIn (id : NodeId) (ts : List (Tree S C M)) : Option (Tree S C M) :=
  (ts.flatMap subtrees).find? fun t => t.id = id

mutual
/-- Puts another tree in the place of a node. -/
def replaceAt (id : NodeId) : Tree S C M → Tree S C M → Tree S C M
  | node i traits cs, new => if i = id then new else node i traits (replaceAtAll id cs new)

def replaceAtAll (id : NodeId) : List (Tree S C M) → Tree S C M → List (Tree S C M)
  | [], _ => []
  | c :: cs, new => replaceAt id c new :: replaceAtAll id cs new
end

mutual
/-- The names that lead from the top of a tree to a node in it. -/
def pathTo? (id : NodeId) : Tree S C M → Option (List Text)
  | node i _ cs => if i = id then some [] else pathAmong? id cs

def pathAmong? (id : NodeId) : List (Tree S C M) → Option (List Text)
  | [] => none
  | c :: cs =>
    match pathTo? id c with
    | some path => some (c.name :: path)
    | none => pathAmong? id cs
end

/-- The node that positions lead to, each among the children of the node before it. -/
def nodeAt? (t : Tree S C M) : List Nat → Option (Tree S C M)
  | [] => some t
  | i :: rest =>
    match t.children[i]? with
    | some c => c.nodeAt? rest
    | none => none

/-- Changes the node that positions lead to; where they lead nowhere, nothing. -/
def modifyAt (f : Tree S C M → Tree S C M) : List Nat → Tree S C M → Tree S C M
  | [], t => f t
  | i :: rest, node id traits cs => node id traits (cs.modify i (modifyAt f rest))

/-- The node that names lead to. -/
def descend? (t : Tree S C M) : List Text → Option (Tree S C M)
  | [] => some t
  | name :: rest =>
    match t.child? name with
    | some c => c.descend? rest
    | none => none

end CommandTree.Tree
