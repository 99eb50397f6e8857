import CommandTree.Tree.Assembly
import Mathlib.Logic.Function.Basic

/-!
What a node keeps beside its children to find them quickly: where the child of a name is, which of the
children are arguments, and whether there are words among them. These are changed separately, at every
change of the children; the children themselves are looked up through them. A node is pointed at by its
identity.
-/

namespace CommandTree

structure Index where
  byName : List (Text × NodeId)
  arguments : List NodeId
  hasLiterals : Bool
deriving DecidableEq, Repr

namespace Index

variable {S C M : Type}

def empty : Index := ⟨[], [], false⟩

def find? (x : Index) (name : Text) : Option NodeId := x.byName.lookup name

/-- Notes a child that becomes the last one. An entry of its name that is there already stays. -/
def insert (x : Index) (c : Tree S C M) : Index where
  byName := if (x.find? c.name).isSome then x.byName else x.byName ++ [(c.name, c.id)]
  arguments := if c.isArgument then x.arguments ++ [c.id] else x.arguments
  hasLiterals := c.isLiteral || x.hasLiterals

/-- Strikes out a child. That there were words is not forgotten. -/
def remove (x : Index) (name : Text) (i : NodeId) : Index where
  byName := x.byName.filter fun (n, _) => n ≠ name
  arguments := x.arguments.filter fun j => j ≠ i
  hasLiterals := x.hasLiterals

/-- The index of children that were inserted one after another. -/
def ofChildren (cs : List (Tree S C M)) : Index := cs.foldl insert empty

end Index

/-- The indexes of all nodes. -/
abbrev Indexes := NodeId → Index

/-- The children of a node that is being changed, with their index and those of all other nodes. -/
structure Brood (S C M : Type) where
  children : List (Tree S C M)
  index : Index
  nodes : Indexes

namespace Brood

variable {S C M : Type}

mutual
/-- The indexes after a tree was copied: every copy gets the copies of the children one after another. -/
def copied (step : Nat) (nodes : Indexes) : Tree S C M → Indexes
  | .node id _ cs =>
    copiedAll step
      (Function.update nodes (step :: id) (.ofChildren (Tree.copyAll step cs))) cs

def copiedAll (step : Nat) (nodes : Indexes) : List (Tree S C M) → Indexes
  | [] => nodes
  | c :: cs => copiedAll step (copied step nodes c) cs
end

def insert (b : Brood S C M) (c : Tree S C M) : Brood S C M :=
  ⟨b.children ++ [c], b.index.insert c, b.nodes⟩

/-- A copy becomes the last child. -/
def insertCopy (step : Nat) (b : Brood S C M) (c : Tree S C M) : Brood S C M :=
  insert { b with nodes := copied step b.nodes c } (c.copy step)

/-- What becomes of the children when one of a name comes: the child that the index has under the name is
changed; where there is none, the newcomer is put in as told. -/
def meet (b : Brood S C M) (name : Text) (new : Brood S C M)
    (change : Tree S C M → Tree S C M × Indexes) : Brood S C M :=
  match b.index.find? name with
  | none => new
  | some i =>
    match b.children.find? fun d => d.id = i with
    | none => b
    | some d =>
      { b with
        children := b.children.map fun e => if e.id = i then (change d).1 else e
        nodes := (change d).2 }

mutual
/-- Merges a tree into one of the same name, as `Tree.absorb` does, by the indexes. -/
def absorb (step : Nat) (nodes : Indexes) (t : Tree S C M) : Tree S C M → Tree S C M × Indexes
  | .node _ traits' cs' =>
    let b := absorbAll step ⟨t.children, nodes t.id, nodes⟩ cs'
    (.node t.id { t.traits with command := traits'.command.or t.command } b.children,
      Function.update b.nodes t.id b.index)

/-- Merges a list of trees, one after another, into the children. -/
def absorbAll (step : Nat) (b : Brood S C M) : List (Tree S C M) → Brood S C M
  | [] => b
  | c :: rest =>
    absorbAll step (b.meet c.name (b.insertCopy step c) fun d => absorb step b.nodes d c) rest
end

/-- Adds a child. A root is never one. -/
def add (step : Nat) (b : Brood S C M) (c : Tree S C M) : Except Fault (Brood S C M) :=
  if c.isRoot then .error Tree.rootAsChild
  else .ok (b.meet c.name (b.insert c) fun d => absorb step b.nodes d c)

/-- Removes the child that the index has under a name. -/
def remove (b : Brood S C M) (name : Text) : Brood S C M :=
  match b.index.find? name with
  | none => b
  | some i => ⟨b.children.eraseP fun c => c.id = i, b.index.remove name i, b.nodes⟩

/-- The children of a node that is built, to which copies are added one after another. -/
def build (step : Nat) (nodes : Indexes) (cs : List (Tree S C M)) : Except Fault (Brood S C M) :=
  cs.foldlM (fun b c => add step { b with nodes := copied step b.nodes c } (c.copy step))
    ⟨[], .empty, nodes⟩

end Brood

end CommandTree
