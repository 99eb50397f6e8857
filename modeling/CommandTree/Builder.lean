import CommandTree.Tree.Assembly

/-!
A builder is a node in the making: its traits, and children that are already whole. It can be built
any number of times, each time with children of its own. Children and a redirect exclude each
other.
-/

namespace CommandTree

structure Builder (S C M : Type) extends Traits S C M where
  children : List (Tree S C M)
  /-- Trees that were merged into a child. -/
  absorbed : List (Tree S C M)

namespace Builder

variable {S C M : Type}

def ofKind (kind : Kind S) : Builder S C M := ⟨.ofKind kind, [], []⟩

/-- Adds a child. A builder that redirects takes none. -/
def addChild (step : Nat) (b : Builder S C M) (c : Tree S C M) : Except Fault (Builder S C M) :=
  if b.redirect.isSome then .error (.structural (text "Cannot add children to a redirected node"))
  else if c.isRoot then .error Tree.rootAsChild
  else .ok
    { b with
      children := Tree.insertChild step b.children c
      absorbed := if Tree.anyNamed c.name b.children then b.absorbed ++ [c] else b.absorbed }

/-- Sets or clears the redirect. A builder with children takes none. -/
def forward (b : Builder S C M) (target : Option NodeId) (modifier : Option M) (forks : Bool) :
    Except Fault (Builder S C M) :=
  if !b.children.isEmpty then .error (.structural (text "Cannot forward a node with children"))
  else .ok { b with redirect := target, modifier, forks }

/-- Replaces the suggestions of an argument; other nodes have none to replace. -/
def suggests (b : Builder S C M) (provider : Provider S) : Builder S C M :=
  match b.kind with
  | .argument name type _ => { b with kind := .argument name type (some provider) }
  | _ => b

/-- The node, made at a step, with copies of the children. -/
def build (step : Nat) (b : Builder S C M) : Tree S C M :=
  .node [step] b.toTraits (Tree.copyAll step b.children)

end Builder

end CommandTree
