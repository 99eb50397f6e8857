import CommandTree.Grammar

/-!
Running a parse. The chain of frames is walked one frame at a time, for many sources at once: a
redirect turns each source into the sources of the next frame, and the command of the last frame
runs once for every source that gets there. Once a fork was passed, a syntax error costs only its
own branch. Everything that a bystander could notice is kept in a journal. Results and their number
are counted in 32 bits, and a sum that does not fit wraps around.
-/

namespace CommandTree

/-- What commands and modifiers do. A command gives a result, a modifier the sources of the next
frame. -/
structure Actions (S C M : Type) where
  run : C → Context S → Except Fault Int32
  derive : M → Context S → Except Fault (List S)

inductive Event (S C M : Type)
  | ran (command : C) (context : Context S)
  | derived (modifier : M) (context : Context S)
  | notified (context : Context S) (success : Bool) (value : Int32)
  | logged (line : Text)

def Event.isLogged {S C M : Type} : Event S C M → Bool
  | .logged _ => true
  | _ => false

/-- A line of the log. -/
def logLine (message : Text) : Text := text "[sergeant] " ++ message ++ [10]

structure Outcome where
  value : Int32
  successes : Int32
  forked : Bool
  failures : List SyntaxError
deriving DecidableEq, Repr

structure Progress (S C M : Type) where
  outcome : Outcome
  /-- Whether a command, or a redirect that goes on, was reached. -/
  found : Bool
  journal : List (Event S C M)

namespace Progress

variable {S C M : Type}

def initial : Progress S C M := ⟨⟨0, 0, false, []⟩, false, []⟩

def note (p : Progress S C M) (e : Event S C M) : Progress S C M :=
  { p with journal := p.journal ++ [e] }

/-- Passes through a frame that may fork. -/
def enter (p : Progress S C M) (forks : Bool) : Progress S C M :=
  { p with outcome := { p.outcome with forked := p.outcome.forked || forks } }

def find (p : Progress S C M) : Progress S C M := { p with found := true }

def succeed (p : Progress S C M) (context : Context S) (value : Int32) : Progress S C M :=
  { p with
    outcome := { p.outcome with
      value := p.outcome.value + value
      successes := p.outcome.successes + 1 } }.note (.notified context true value)

/-- Keeps the failure of one branch. -/
def record (p : Progress S C M) (headline : String) (e : SyntaxError) : Progress S C M :=
  { p with outcome := { p.outcome with failures := p.outcome.failures ++ [e] } }.note
    (.logged (logLine (text headline ++ text " failed in forked branch: " ++ e.describe)))

end Progress

namespace Chain

variable {S C M : Type}

/-- The branches that a branch goes on in, and the progress made. -/
abbrev Advance (S C M : Type) := Except Fault (List (Chain S C M)) × Progress S C M

/-- A failure ends the run, unless a syntax error arises behind a fork. -/
def fail (p : Progress S C M) (headline : String) (context : Context S) : Fault → Advance S C M
  | .rejected e =>
    let p := p.note (.notified context false 0)
    if p.outcome.forked then (.ok [], p.record headline e) else (.error (.rejected e), p)
  | f => (.error f, p)

def withSource (c : Chain S C M) (source : S) : Chain S C M :=
  { c with first := c.first.withSource source }

/-- Runs the command of the last frame. -/
def finish (acts : Actions S C M) (input : Text) (s : Segment S C M) (p : Progress S C M) :
    Advance S C M :=
  match s.command with
  | none => (.ok [], p)
  | some command =>
    let context := s.context input
    let p := p.find.note (.ran command context)
    match acts.run command context with
    | .ok value => (.ok [], p.succeed context value)
    | .error f => fail p "command" context f

/-- Goes from a frame to the rest of the chain. A redirect that matched nothing leads nowhere. -/
def follow (acts : Actions S C M) (input : Text) (s : Segment S C M) (child : Chain S C M)
    (p : Progress S C M) : Advance S C M :=
  let p := p.enter s.forks
  if child.first.frame.matched.isEmpty then (.ok [], p)
  else
    match s.modifier with
    | none => (.ok [child.withSource s.frame.source], p.find)
    | some modifier =>
      let context := s.context input
      let p := p.find.note (.derived modifier context)
      match acts.derive modifier context with
      | .ok sources => (.ok (sources.map child.withSource), p)
      | .error f => fail p "redirect modifier" context f

def advance (acts : Actions S C M) (input : Text) (c : Chain S C M) (p : Progress S C M) :
    Advance S C M :=
  match c.child? with
  | some child => follow acts input c.first child p
  | none => finish acts input c.first p

/-- Takes every branch one frame further, in order. -/
def advanceAll (acts : Actions S C M) (input : Text) :
    List (Chain S C M) → Progress S C M → Advance S C M
  | [], p => (.ok [], p)
  | c :: cs, p =>
    match c.advance acts input p with
    | (.error f, p) => (.error f, p)
    | (.ok next, p) =>
      match advanceAll acts input cs p with
      | (.error f, p) => (.error f, p)
      | (.ok more, p) => (.ok (next ++ more), p)

/-- Takes all branches a number of frames further. -/
def rounds (acts : Actions S C M) (input : Text) :
    Nat → List (Chain S C M) → Progress S C M → Except Fault Unit × Progress S C M
  | 0, _, p => (.ok (), p)
  | n + 1, cs, p =>
    match advanceAll acts input cs p with
    | (.error f, p) => (.error f, p)
    | (.ok next, p) => rounds acts input n next p

end Chain

namespace Parse

variable {S C M : Type}

/-- Why a parse that left input over cannot be run: the error that got furthest, if any. -/
def leftover (p : Parse S C M) : SyntaxError :=
  match p.deepest? with
  | some e => e
  | none =>
    p.reader.error
      (if p.chain.first.frame.span.isEmpty then .unknownCommand else .unknownArgument)

/-- Runs a parse. With forks the value is the number of branches that succeeded. -/
def execute (acts : Actions S C M) (p : Parse S C M) :
    Except Fault Outcome × List (Event S C M) :=
  if p.reader.canRead 1 then (.error (.rejected p.leftover), [])
  else
    let input := p.reader.input
    match Chain.rounds acts input p.chain.all.length [p.chain] .initial with
    | (.error f, progress) => (.error f, progress.journal)
    | (.ok (), progress) =>
      if progress.found then
        let outcome := progress.outcome
        (.ok (if outcome.forked then { outcome with value := outcome.successes } else outcome),
          progress.journal)
      else
        (.error (p.reader.reject .unknownCommand),
          (progress.note (.notified (p.chain.first.context input) false 0)).journal)

end Parse

end CommandTree
