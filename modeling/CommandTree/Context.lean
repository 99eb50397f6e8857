import CommandTree.Reader
import CommandTree.Span
import CommandTree.Value

/-!
What a parse has gathered: which nodes were matched where, and which values their arguments took.
A frame covers the nodes below one root; a context is a frame together with the whole input, and is
what commands, redirects and completions look at.
-/

namespace CommandTree

/-- A node is known by the steps at which it was made and copied, the latest first. -/
abbrev NodeId := List Nat

/-- What a node is, as far as listings show it. -/
inductive Tag
  | root
  | literal (word : Text)
  | argument (name : Text)
deriving DecidableEq, Repr

namespace Tag

def name : Tag → Text
  | root => []
  | literal word => word
  | argument name => name

/-- How the node stands in a usage line. -/
def usage : Tag → Text
  | root => []
  | literal word => word
  | argument name => text "<" ++ name ++ text ">"

end Tag

/-- A node that was matched, and where. -/
structure Match where
  node : NodeId
  tag : Tag
  span : Span
deriving DecidableEq, Repr

/-- A value that an argument took, and where it stands. -/
structure Binding where
  span : Span
  value : Value
deriving DecidableEq, Repr

/-- Values by argument name, in increasing order of the names. -/
abbrev Bindings := List (Text × Binding)

namespace Bindings

/-- Binds a name, in place of what it was bound to. -/
def insert (name : Text) (b : Binding) : Bindings → Bindings
  | [] => [(name, b)]
  | (n, c) :: rest =>
    if name = n then (name, b) :: rest
    else if name < n then (name, b) :: (n, c) :: rest
    else (n, c) :: insert name b rest

def find? (name : Text) : Bindings → Option Binding
  | [] => none
  | (n, b) :: rest => if name = n then some b else find? name rest

theorem find?_insert_self (name : Text) (b : Binding) (bs : Bindings) :
    find? name (insert name b bs) = some b := by
  induction bs with
  | nil => simp [insert, find?]
  | cons p rest ih =>
    obtain ⟨n, c⟩ := p
    by_cases h : name = n
    · simp [insert, find?, h]
    · by_cases hl : name < n <;> simp [insert, find?, h, hl, ih]

theorem find?_insert_of_ne {name other : Text} (h : other ≠ name) (b : Binding) (bs : Bindings) :
    find? other (insert name b bs) = find? other bs := by
  induction bs with
  | nil => simp [insert, find?, h]
  | cons p rest ih =>
    obtain ⟨n, c⟩ := p
    by_cases hn : name = n
    · subst hn; simp [insert, find?, h]
    · by_cases hl : name < n <;> simp [insert, find?, hn, hl, h, ih]

end Bindings

structure Frame (S : Type) where
  source : S
  /-- The node below which the matched nodes stand. -/
  root : Option NodeId
  span : Span
  matched : List Match
  bindings : Bindings
deriving Repr

namespace Frame

variable {S : Type}

/-- Nothing matched yet, at a position of the input. -/
def start (source : S) (root : Option NodeId) (position : Int) : Frame S :=
  ⟨source, root, .point position, [], []⟩

def bind (f : Frame S) (name : Text) (b : Binding) : Frame S :=
  { f with bindings := f.bindings.insert name b }

/-- Appends a matched node and covers its span. -/
def push (f : Frame S) (m : Match) : Frame S :=
  { f with matched := f.matched ++ [m], span := f.span.union m.span }

def has (f : Frame S) (name : Text) : Bool := (f.bindings.find? name).isSome

/-- What a reading of values makes of an argument. The fault for a missing argument, or for one of
another kind, names the argument. -/
def ask {α : Type} (f : Frame S) (name : Text) (kind : ValueKind) (as? : Value → Option α) :
    Except Fault α :=
  match f.bindings.find? name with
  | none =>
    .error (.invalidArgument (text "No such argument '" ++ name ++ text "' exists on this command"))
  | some b =>
    match as? b.value with
    | some a => .ok a
    | none => .error (.invalidArgument (text "Argument '" ++ name ++ text "' is defined as " ++
        b.value.kind.name ++ text ", not " ++ kind.name))

theorem ask_ok_iff {α : Type} {f : Frame S} {name : Text} {kind : ValueKind}
    {as? : Value → Option α} {a : α} :
    f.ask name kind as? = .ok a ↔
      ∃ b, f.bindings.find? name = some b ∧ as? b.value = some a := by
  unfold ask
  cases f.bindings.find? name with
  | none => simp
  | some b => cases h : as? b.value <;> simp [h]

def askBool (f : Frame S) (name : Text) : Except Fault Bool := f.ask name .bool Value.bool?

def askInteger (f : Frame S) (name : Text) : Except Fault Int :=
  f.ask name (.number .integer) Value.integer?

def askLong (f : Frame S) (name : Text) : Except Fault Int :=
  f.ask name (.number .long) Value.long?

def askFloat (f : Frame S) (name : Text) : Except Fault Single :=
  f.ask name (.number .float) Value.float?

def askDouble (f : Frame S) (name : Text) : Except Fault Double :=
  f.ask name (.number .double) Value.double?

def askString (f : Frame S) (name : Text) : Except Fault Text := f.ask name .string Value.string?

/-- The value of an argument of a kind. -/
def value (f : Frame S) (name : Text) (kind : ValueKind) : Except Fault Value :=
  f.ask name kind (Value.ofKind? kind)

end Frame

/-- A frame and the input it was gathered from. -/
structure Context (S : Type) extends Frame S where
  input : Text
deriving Repr

/-- A frame of a parse, with what follows from its last node: the command to run, the way to
derive sources for the next frame, and whether each of those goes its own way. -/
structure Segment (S C M : Type) where
  frame : Frame S
  command : Option C
  modifier : Option M
  forks : Bool

namespace Segment

variable {S C M : Type}

def start (source : S) (root : Option NodeId) (position : Int) : Segment S C M :=
  ⟨.start source root position, none, none, false⟩

def context (s : Segment S C M) (input : Text) : Context S := ⟨s.frame, input⟩

def withSource (s : Segment S C M) (source : S) : Segment S C M :=
  { s with frame := { s.frame with source } }

end Segment

/-- The frames of a parse from the outermost on: each redirect begins a new one. -/
structure Chain (S C M : Type) where
  first : Segment S C M
  later : List (Segment S C M)

namespace Chain

variable {S C M : Type}

def all (c : Chain S C M) : List (Segment S C M) := c.first :: c.later

def last (c : Chain S C M) : Segment S C M := c.later.getLastD c.first

/-- The chain without its first frame. -/
def child? (c : Chain S C M) : Option (Chain S C M) :=
  match c.later with
  | [] => none
  | s :: rest => some ⟨s, rest⟩

end Chain

end CommandTree
