import CommandTree.ArgumentType
import CommandTree.Context

/-!
A command tree: below a root stand literal words and typed arguments. Every node may carry a
command, conditions on its use, and a redirect to another node, which is named by its identity. A
child is looked up by name; the words and the arguments among the children are read off the list.
-/

namespace CommandTree

/-- Suggests completions in place of an argument's type. -/
abbrev Provider (S : Type) := Context S → Draft → Except Fault Suggestions

inductive Kind (S : Type)
  | root
  | literal (word : Text)
  | argument (name : Text) (type : ArgumentType) (provider : Option (Provider S))

namespace Kind

variable {S : Type}

def tag : Kind S → Tag
  | root => .root
  | literal word => .literal word
  | argument name _ _ => .argument name

def isLiteral : Kind S → Bool
  | literal _ => true
  | _ => false

def isArgument : Kind S → Bool
  | argument _ _ _ => true
  | _ => false

def isRoot : Kind S → Bool
  | root => true
  | _ => false

end Kind

/-- All there is to a node but its identity and its children. -/
structure Traits (S C M : Type) where
  kind : Kind S
  command : Option C
  /-- Which sources may use the node. -/
  requirement : Option (S → Except Fault Bool)
  /-- Whether to try the node, given what was matched before it and the input ahead. -/
  contextRequirement : Option (Frame S → Reader → Except Fault Bool)
  redirect : Option NodeId
  modifier : Option M
  forks : Bool

namespace Traits

variable {S C M : Type}

def ofKind (kind : Kind S) : Traits S C M := ⟨kind, none, none, none, none, none, false⟩

end Traits

inductive Tree (S C M : Type)
  | node (id : NodeId) (traits : Traits S C M) (children : List (Tree S C M))

namespace Tree

variable {S C M : Type}

def id : Tree S C M → NodeId
  | node id _ _ => id

def traits : Tree S C M → Traits S C M
  | node _ traits _ => traits

def children : Tree S C M → List (Tree S C M)
  | node _ _ children => children

def tag (t : Tree S C M) : Tag := t.traits.kind.tag

def name (t : Tree S C M) : Text := t.tag.name

def usage (t : Tree S C M) : Text := t.tag.usage

def isLiteral (t : Tree S C M) : Bool := t.traits.kind.isLiteral

def isArgument (t : Tree S C M) : Bool := t.traits.kind.isArgument

def isRoot (t : Tree S C M) : Bool := t.traits.kind.isRoot

def command (t : Tree S C M) : Option C := t.traits.command

def redirect (t : Tree S C M) : Option NodeId := t.traits.redirect

/-- A root without children. -/
def bare (id : NodeId) : Tree S C M := node id (.ofKind .root) []

def child? (t : Tree S C M) (name : Text) : Option (Tree S C M) :=
  t.children.find? fun c => c.name = name

def arguments (t : Tree S C M) : List (Tree S C M) := t.children.filter isArgument

/-- The children worth trying at a reader: the word that the next token is, if it is one, and then
every argument. -/
def relevant (t : Tree S C M) (r : Reader) : List (Tree S C M) :=
  ((t.child? r.rest.token).filter isLiteral).toList ++ t.arguments

/-- Whether a source may use the node. -/
def admits (t : Tree S C M) (source : S) : Except Fault Bool :=
  match t.traits.requirement with
  | none => .ok true
  | some p => p source

/-- Whether the node is to be tried by a parse: its source is asked first. -/
def eligible (t : Tree S C M) (f : Frame S) (r : Reader) : Except Fault Bool :=
  match t.admits f.source with
  | .ok true =>
    match t.traits.contextRequirement with
    | none => .ok true
    | some p => p f r
  | refused => refused

/-- A word stands at a reader when a separator or the end follows it. -/
def wordAt (word : Text) (r : Reader) : Bool :=
  r.canRead word.length && word.isPrefixOf r.rest && (r.advance word.length).atBoundary

/-- Records the node as matched. What follows from it replaces what followed from the node
before. -/
def visit (t : Tree S C M) (span : Span) (s : Segment S C M) : Segment S C M :=
  { s with
    frame := s.frame.push ⟨t.id, t.tag, span⟩
    modifier := t.traits.modifier
    forks := t.traits.forks }

/-- Matches the node at a reader and records it. -/
def accept (t : Tree S C M) (r : Reader) (s : Segment S C M) : Reading (Segment S C M) :=
  match t.traits.kind with
  | .root => (.ok s, 0)
  | .literal word =>
    if wordAt word r then (.ok (t.visit ⟨r.cursor, r.cursor + word.length⟩ s), word.length)
    else (.error (r.reject (.incorrectLiteral word)), 0)
  | .argument name type _ =>
    match type.parse r with
    | (.ok v, n) =>
      let span : Span := ⟨r.cursor, r.cursor + n⟩
      (.ok (t.visit span { s with frame := s.frame.bind name ⟨span, v⟩ }), n)
    | (.error e, n) => (.error e, n)

/-- One step of a parse: the node is matched and its token ends there. Faults that are no syntax
errors become one at the place where they arose. -/
def attempt (t : Tree S C M) (r : Reader) (s : Segment S C M) :
    Except SyntaxError (Segment S C M × Nat) :=
  match t.accept r s with
  | (.ok s', n) =>
    if (r.advance n).atBoundary then .ok ({ s' with command := t.command }, n)
    else .error ((r.advance n).error .expectedSeparator)
  | (.error (.rejected e), _) => .error e
  | (.error f, n) => .error ((r.advance n).error (.unreadable f.describe))

/-- Completions of the token that a draft is about. -/
def suggest (t : Tree S C M) (context : Context S) (d : Draft) : Except Fault Suggestions :=
  match t.traits.kind with
  | .root => .ok .empty
  | .literal word =>
    if d.remainingLower.isPrefixOf word.lower then (d.suggest word none).build else .ok .empty
  | .argument _ type none => type.suggest d
  | .argument _ _ (some provider) => provider context d

/-- Inputs that the node accepts. -/
def examples (t : Tree S C M) : List Text :=
  match t.traits.kind with
  | .root => []
  | .literal word => [word]
  | .argument _ type _ => type.examples

/-- Whether the node alone accepts the beginning of an input up to a boundary. -/
def accepts (t : Tree S C M) (input : Text) : Except Fault Bool :=
  match t.traits.kind with
  | .root => .ok false
  | .literal word => .ok (wordAt word (.ofText input))
  | .argument _ type _ =>
    match type.parse (.ofText input) with
    | (.ok _, n) => .ok ((Reader.ofText input).advance n).atBoundary
    | (.error (.rejected _), _) => .ok false
    | (.error f, _) => .error f

/-- Words stand before arguments, then the names decide. -/
def precedes (a b : Tree S C M) : Bool :=
  if a.isLiteral = b.isLiteral then a.name < b.name else a.isLiteral

end Tree

end CommandTree
