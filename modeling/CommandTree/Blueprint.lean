import CommandTree.Builder

/-!
A blueprint describes a node by the settings of its builder, in the order in which they are made.
Its children are described in turn, or taken from what lies ready under a name.
-/

namespace CommandTree

/-- A way to point at a node: by the names that lead to it from the root, or by a label that was
put on it. -/
inductive Target
  | path (names : List Text)
  | label (name : Text)
deriving DecidableEq, Repr

mutual
inductive Blueprint (S C M : Type)
  | node (kind : Kind S) (settings : List (Setting S C M))

inductive Setting (S C M : Type)
  | command (command : C)
  | requirement (p : S → Except Fault Bool)
  | contextRequirement (p : Frame S → Reader → Except Fault Bool)
  | provider (provider : Provider S)
  | child (part : Part S C M)
  | forward (target : Option Target) (modifier : Option M) (forks : Bool)

/-- A child: described, a bare root, a loose node under a label, or a node built from a builder
that has a name. -/
inductive Part (S C M : Type)
  | described (blueprint : Blueprint S C M)
  | bareRoot
  | loose (label : Text)
  | builder (name : Text)
end

end CommandTree
