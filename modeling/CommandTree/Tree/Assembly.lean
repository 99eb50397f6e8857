import CommandTree.Tree

/-!
Putting trees together. Siblings have different names: a child whose name is taken is merged into
the one that has it, which takes over the command of the newcomer, where there is one, and copies of
the children that it lacks. Copies are new nodes; the step at which they are made tells them apart
from all others.
-/

namespace CommandTree.Tree

variable {S C M : Type}

mutual
/-- A copy of a tree, made at a step. Redirects keep their targets. -/
def copy (step : Nat) : Tree S C M → Tree S C M
  | node id traits cs => node (step :: id) traits (copyAll step cs)

def copyAll (step : Nat) : List (Tree S C M) → List (Tree S C M)
  | [] => []
  | c :: cs => copy step c :: copyAll step cs
end

theorem copyAll_eq_map (step : Nat) (cs : List (Tree S C M)) :
    copyAll step cs = cs.map (copy step) := by
  induction cs with
  | nil => rfl
  | cons c cs ih => simp [copyAll, ih]

@[simp] theorem traits_copy (step : Nat) (t : Tree S C M) : (t.copy step).traits = t.traits := by
  cases t; rfl

@[simp] theorem name_copy (step : Nat) (t : Tree S C M) : (t.copy step).name = t.name := by
  simp [name, tag]

/-- Whether a list of siblings has a name. -/
def anyNamed (name : Text) (cs : List (Tree S C M)) : Bool := cs.any fun c => c.name = name

mutual
/-- Merges a tree into one of the same name. -/
def absorb (step : Nat) (t : Tree S C M) : Tree S C M → Tree S C M
  | node _ traits' cs' =>
    match t with
    | node id traits cs =>
      node id { traits with command := traits'.command.or traits.command }
        (absorbAll step cs cs')

/-- Merges a list of trees, one after another, into a list of siblings. -/
def absorbAll (step : Nat) (cs : List (Tree S C M)) : List (Tree S C M) → List (Tree S C M)
  | [] => cs
  | c :: rest =>
    absorbAll step
      (if anyNamed c.name cs then cs.map fun d => if d.name = c.name then absorb step d c else d
        else cs ++ [c.copy step])
      rest
end

/-- The message for a root that is to become a child. -/
def rootAsChild : Fault :=
  .structural (text "Cannot add a root node as a child to any other node")

/-- Adds a tree to a list of siblings: it is merged where its name is taken, else it becomes the
last of them. -/
def insertChild (step : Nat) (cs : List (Tree S C M)) (c : Tree S C M) : List (Tree S C M) :=
  if anyNamed c.name cs then cs.map fun d => if d.name = c.name then absorb step d c else d
  else cs ++ [c]

/-- Adds a child. A root is never one. -/
def addChild (step : Nat) (t c : Tree S C M) : Except Fault (Tree S C M) :=
  if c.isRoot then .error rootAsChild
  else .ok (node t.id t.traits (insertChild step t.children c))

def removeChild (t : Tree S C M) (name : Text) : Tree S C M :=
  node t.id t.traits (t.children.filter fun c => c.name ≠ name)

end CommandTree.Tree
