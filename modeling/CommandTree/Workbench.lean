import CommandTree.Blueprint
import CommandTree.Ambiguity
import CommandTree.Completion
import CommandTree.Execution
import CommandTree.Usage

/-!
A workbench holds the tree of a dispatcher and all that is under construction beside it: nodes that
are not, or no longer, in the tree, and builders with names. Any node on it can be the target of a
redirect, so looking up a node looks everywhere. Every step that makes nodes has a number of its
own, from which they take their identities.
-/

namespace CommandTree

structure Options where
  /-- Whether no log is written. -/
  silent : Bool
  usage : UsageFormat
deriving Repr

structure Workbench (S C M : Type) where
  options : Options
  root : Tree S C M
  loose : List (Tree S C M)
  builders : List (Text × Builder S C M)
  labels : List (Text × NodeId)
  step : Nat

/-- The result of work that may fail, and what is on the workbench afterwards. -/
abbrev Work (S C M α : Type) := Except Fault α × Workbench S C M

namespace Workbench

variable {S C M : Type}

def ofOptions (options : Options) : Workbench S C M := ⟨options, .bare [], [], [], [], 0⟩

/-- All trees on the workbench. -/
def trees (w : Workbench S C M) : List (Tree S C M) :=
  w.root :: w.loose ++ w.builders.flatMap fun (_, b) => b.children ++ b.absorbed

def find? (w : Workbench S C M) (id : NodeId) : Option (Tree S C M) := Tree.findIn id w.trees

def resolve (w : Workbench S C M) (id : NodeId) : Tree S C M := (w.find? id).getD (.bare id)

def grammar (w : Workbench S C M) : Grammar S C M := ⟨w.root, w.resolve⟩

/-- The node that a target points at. -/
def locate? (w : Workbench S C M) : Target → Option NodeId
  | .path names => (w.root.descend? names).map Tree.id
  | .label name => w.labels.lookup name

def noSuchNode : Fault := .logic (text "no such node")

def locate (w : Workbench S C M) (target : Target) : Except Fault NodeId :=
  match w.locate? target with
  | some id => .ok id
  | none => .error noSuchNode

/-- The names that lead to a node, none for nodes outside the tree. -/
def path (w : Workbench S C M) (id : NodeId) : List Text := (w.root.pathTo? id).getD []

def keep (w : Workbench S C M) (t : Tree S C M) : Workbench S C M :=
  { w with loose := w.loose ++ [t] }

def label (w : Workbench S C M) (name : Text) (id : NodeId) : Workbench S C M :=
  { w with labels := (name, id) :: w.labels }

/-- Takes a loose node off the workbench. -/
def take (w : Workbench S C M) (name : Text) : Work S C M (Tree S C M) :=
  match w.labels.lookup name with
  | none => (.error noSuchNode, w)
  | some id =>
    match w.loose.find? fun t => t.id = id with
    | none => (.error noSuchNode, w)
    | some t => (.ok t, { w with loose := w.loose.filter fun u => u.id ≠ id })

/-- Replaces a node wherever it is. -/
def replace (w : Workbench S C M) (id : NodeId) (new : Tree S C M) : Workbench S C M :=
  { w with
    root := w.root.replaceAt id new
    loose := Tree.replaceAtAll id w.loose new
    builders := w.builders.map fun (name, b) => (name,
      { b with
        children := Tree.replaceAtAll id b.children new
        absorbed := Tree.replaceAtAll id b.absorbed new }) }

def build (w : Workbench S C M) (b : Builder S C M) : Tree S C M × Workbench S C M :=
  (b.build w.step, { w with step := w.step + 1 })

/-- A copy of a node and all below it. -/
def clone (w : Workbench S C M) (id : NodeId) : Tree S C M × Workbench S C M :=
  ((w.resolve id).copy w.step, { w with step := w.step + 1 })

/-- Adds a child to a node. A tree that was merged away stays on the workbench. -/
def addChild (w : Workbench S C M) (parent : NodeId) (c : Tree S C M) : Work S C M Unit :=
  let t := w.resolve parent
  match t.addChild w.step c with
  | .error f => (.error f, w.keep c)
  | .ok t' =>
    let w := { w.replace parent t' with step := w.step + 1 }
    (.ok (), if Tree.anyNamed c.name t.children then w.keep c else w)

/-- Removes a child; it is lost. -/
def removeChild (w : Workbench S C M) (parent : NodeId) (name : Text) : Workbench S C M :=
  w.replace parent ((w.resolve parent).removeChild name)

def named? (w : Workbench S C M) (name : Text) : Option (Builder S C M) := w.builders.lookup name

/-- Puts a builder under a name, in place of the one that has it. -/
def store (w : Workbench S C M) (name : Text) (b : Builder S C M) : Workbench S C M :=
  { w with builders := (name, b) :: w.builders.filter fun (n, _) => n ≠ name }

/-- Adds a finished child to a builder. A child that it refuses is loose again. -/
def attach (w : Workbench S C M) (b : Builder S C M) (c : Tree S C M) :
    Except Fault Unit × Builder S C M × Workbench S C M :=
  match b.addChild w.step c with
  | .error f => (.error f, b, w.keep c)
  | .ok b => (.ok (), b, { w with step := w.step + 1 })

/-- Puts aside what a builder without a name holds: labels and redirects may point at it. -/
def keepHeld (w : Workbench S C M) (b : Builder S C M) : Workbench S C M :=
  { w with loose := w.loose ++ b.children ++ b.absorbed }

mutual
/-- Makes the builder that a blueprint describes. -/
def assemble (w : Workbench S C M) : Blueprint S C M → Work S C M (Builder S C M)
  | .node kind settings =>
    match applyAll w (.ofKind kind) settings with
    | (.ok (), b, w) => (.ok b, w.keepHeld b)
    | (.error f, b, w) => (.error f, w.keepHeld b)

/-- Applies settings in order up to the first that fails. -/
def applyAll (w : Workbench S C M) (b : Builder S C M) :
    List (Setting S C M) → Except Fault Unit × Builder S C M × Workbench S C M
  | [] => (.ok (), b, w)
  | s :: rest =>
    match apply w b s with
    | (.ok (), b, w) => applyAll w b rest
    | failed => failed

def apply (w : Workbench S C M) (b : Builder S C M) :
    Setting S C M → Except Fault Unit × Builder S C M × Workbench S C M
  | .command c => (.ok (), { b with command := some c }, w)
  | .requirement p => (.ok (), { b with requirement := some p }, w)
  | .contextRequirement p => (.ok (), { b with contextRequirement := some p }, w)
  | .provider p => (.ok (), b.suggests p, w)
  | .child part =>
    match prepare w part with
    | (.error f, w) => (.error f, b, w)
    | (.ok c, w) => w.attach b c
  | .forward none modifier forks =>
    match b.forward none modifier forks with
    | .error f => (.error f, b, w)
    | .ok b => (.ok (), b, w)
  | .forward (some target) modifier forks =>
    match w.locate target with
    | .error f => (.error f, b, w)
    | .ok id =>
      match b.forward (some id) modifier forks with
      | .error f => (.error f, b, w)
      | .ok b => (.ok (), b, w)

/-- Makes the child that a part stands for. -/
def prepare (w : Workbench S C M) : Part S C M → Work S C M (Tree S C M)
  | .described blueprint =>
    match assemble w blueprint with
    | (.error f, w) => (.error f, w)
    | (.ok b, w) => let (t, w) := w.build b; (.ok t, w)
  | .bareRoot => let (t, w) := w.build (.ofKind .root); (.ok t, w)
  | .loose name => w.take name
  | .builder name =>
    match w.named? name with
    | none => (.error noSuchNode, w)
    | some b => let (t, w) := w.build b; (.ok t, w)
end

/-- Changes a builder by settings, one after another; those before one that fails are kept. A setting
that names the builder itself means it as the settings before have left it. -/
def amend (w : Workbench S C M) (name : Text) : List (Setting S C M) → Work S C M Unit
  | [] => (.ok (), w)
  | s :: rest =>
    match w.named? name with
    | none => (.error noSuchNode, w)
    | some b =>
      match apply w b s with
      | (.ok (), b, w) => amend (w.store name b) name rest
      | (.error f, b, w) => (.error f, w.store name b)

/-- Begins a builder under a name and changes it as a blueprint says. -/
def startBuilder (w : Workbench S C M) (name : Text) : Blueprint S C M → Work S C M Unit
  | .node kind settings => (w.store name (.ofKind kind)).amend name settings

/-- What of the events gets out: a silent workbench writes no log. -/
def heard (w : Workbench S C M) (events : List (Event S C M)) : List (Event S C M) :=
  if w.options.silent then events.filter fun e => !e.isLogged else events

/-- Builds a command into the tree. The node is the one that now has its name. -/
def register (w : Workbench S C M) (b : Builder S C M) :
    Work S C M NodeId × List (Event S C M) :=
  let (t, w) := w.build b
  match w.addChild w.root.id t with
  | (.error f, w) => ((.error f, w), [])
  | (.ok (), w) =>
    ((.ok (((w.root.child? t.name).map Tree.id).getD t.id), w),
      w.heard [.logged (logLine (text "registered command '" ++ t.name ++ text "'"))])

/-- Parses a command and logs where the parse stopped short. -/
def parse (w : Workbench S C M) (source : S) (r : Reader) :
    Except Fault (Parse S C M) × List (Event S C M) :=
  match w.grammar.parse source r with
  | .error f => (.error f, [])
  | .ok p =>
    (.ok p,
      if p.isDone then []
      else w.heard [.logged (logLine (text "parse of '" ++ r.input ++
        text "' stopped at position " ++ Decimal.integer p.reader.cursor))])

/-- Runs a parse. -/
def execute (w : Workbench S C M) (acts : Actions S C M) (p : Parse S C M) :
    Except Fault Outcome × List (Event S C M) :=
  let (outcome, events) := p.execute acts
  (outcome, w.heard events)

/-- How the log calls a node. -/
def calls (w : Workbench S C M) (id : NodeId) : Text :=
  match w.path id with
  | [] => text "<root>"
  | names => [separator].intercalate names

/-- A line about an ambiguity. -/
def ambiguityLine (w : Workbench S C M) (a : Ambiguity S C M) : Text :=
  logLine (text "'" ++ w.calls a.parent.id ++ text "': " ++ a.child.usage ++ text " and " ++
    a.sibling.usage ++ text " both accept " ++ (text ", ").intercalate a.inputs)

/-- Logs the ambiguities of the tree. -/
def logAmbiguities (w : Workbench S C M) : Except Fault Unit × List (Event S C M) :=
  let (found, ending) := Ambiguity.ofTree w.root
  (ending, w.heard (found.map fun a => .logged (w.ambiguityLine a)))

end Workbench

end CommandTree
