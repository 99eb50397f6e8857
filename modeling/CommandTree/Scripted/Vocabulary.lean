import CommandTree.Execution

/-!
A small vocabulary of commands, modifiers, conditions and suggestion scripts for dispatchers whose
sources are integers. Each entry is data with a meaning, so that a whole dispatcher can be written
down.
-/

namespace CommandTree.Scripted

inductive Command
  | constant (n : Int)
  | void
  | source
  | integer (name : Text)
  | addSource (name : Text)
  | long (name : Text)
  | bool (name : Text)
  | floatAbove (name : Text) (bound : Single)
  | doubleAbove (name : Text) (bound : Double)
  | length (name : Text)
  | has (name : Text)
  | depth
  | refuse (message : Text)
  | refuseHere (message : Text)
  | refuseModulo (k r : Int) (message : Text)
  | runtimeFault (message : Text)
  | runtimeFaultAt (n : Int) (message : Text)
deriving DecidableEq, Repr

def bit (b : Bool) : Int32 := if b then 1 else 0

/-- What a command gives for a context. Its result is a 32-bit number, so a long one wraps. -/
def Command.run (command : Command) (c : Context Int) : Except Fault Int32 :=
  match command with
  | constant n => .ok (.ofInt n)
  | void => .ok 1
  | source => .ok (.ofInt c.source)
  | integer name => (c.askInteger name).map .ofInt
  | addSource name => (c.askInteger name).map fun i => .ofInt (c.source + i)
  | long name => (c.askLong name).map .ofInt
  | bool name => (c.askBool name).map bit
  | floatAbove name bound => (c.askFloat name).map fun x => bit (bound.lt x)
  | doubleAbove name bound => (c.askDouble name).map fun x => bit (bound.lt x)
  | length name => (c.askString name).map fun t => .ofNat t.length
  | has name => .ok (bit (c.has name))
  | depth => .ok (.ofNat c.matched.length)
  | refuse message => .error (.custom message)
  | refuseHere message => .error (.rejected ⟨.custom message, some (c.input, c.span.stop)⟩)
  | refuseModulo k r message => if c.source % k = r then .error (.custom message) else .ok 1
  | runtimeFault message => .error (.runtime message)
  | runtimeFaultAt n message => if c.source = n then .error (.runtime message) else .ok 1

inductive Modifier
  | sources (list : List Int)
  | same
  | argument (name : Text)
  | affine (factor : Int) (offsets : List Int)
  | upTo (name : Text)
  | refuse (message : Text)
  | refuseAt (n : Int) (message : Text) (list : List Int)
  | runtimeFault (message : Text)
deriving DecidableEq, Repr

/-- The 32-bit number that an integer wraps to. -/
def wrap (i : Int) : Int := i.bmod (twoTo 32)

/-- The sources that a modifier derives from a context. They are 32-bit numbers too. -/
def Modifier.derive (modifier : Modifier) (c : Context Int) : Except Fault (List Int) :=
  match modifier with
  | sources list => .ok list
  | same => .ok [c.source]
  | argument name => (c.askInteger name).map ([·])
  | affine factor offsets => .ok (offsets.map fun e => wrap (c.source * factor + e))
  | upTo name =>
    (c.askInteger name).map fun n => (List.range n.toNat).map fun (i : Nat) => (i : Int)
  | refuse message => .error (.custom message)
  | refuseAt n message list => if c.source = n then .error (.custom message) else .ok list
  | runtimeFault message => .error (.runtime message)

/-- Commands and modifiers together. -/
def actions : Actions Int Command Modifier := ⟨Command.run, Modifier.derive⟩

/-- A condition on a source. -/
inductive SourceTest
  | always
  | never
  | above (n : Int)
  | below (n : Int)
  | exactly (n : Int)
  | modulo (k r : Int)
  | refuse (message : Text)
deriving DecidableEq, Repr

def SourceTest.check (test : SourceTest) (source : Int) : Except Fault Bool :=
  match test with
  | always => .ok true
  | never => .ok false
  | above n => .ok (n < source)
  | below n => .ok (source < n)
  | exactly n => .ok (source = n)
  | modulo k r => .ok (source % k = r)
  | refuse message => .error (.custom message)

/-- A condition on what was matched so far and the input ahead. -/
inductive ParseTest
  | never
  | nodes (n : Int)
  | peekNot (c : UInt8)
  | canRead (n : Int)
  | cursorBelow (n : Int)
  | has (name : Text)
  | integerAbove (name : Text) (n : Int)
  | sourceAbove (n : Int)
  | starts (t : Text)
  | all (tests : List ParseTest)
  | refuse (message : Text)

mutual
def ParseTest.check (f : Frame Int) (r : Reader) : ParseTest → Except Fault Bool
  | .never => .ok false
  | .nodes n => .ok (f.matched.length = n)
  | .peekNot c => .ok (r.peek 0 ≠ c)
  | .canRead n => .ok (r.canRead n)
  | .cursorBelow n => .ok (r.cursor < n)
  | .has name => .ok (f.has name)
  | .integerAbove name n =>
    match f.bindings.find? name with
    | some ⟨_, .number (.integer i)⟩ => .ok (n < i)
    | _ => .ok false
  | .sourceAbove n => .ok (n < f.source)
  | .starts t => .ok (t.isPrefixOf r.rest)
  | .all tests => ParseTest.checkAll f r tests
  | .refuse message => .error (.custom message)

/-- All of a list of conditions hold; none is asked behind one that does not. -/
def ParseTest.checkAll (f : Frame Int) (r : Reader) : List ParseTest → Except Fault Bool
  | [] => .ok true
  | t :: ts =>
    match ParseTest.check f r t with
    | .ok true => ParseTest.checkAll f r ts
    | refused => refused
end

/-- One step of a suggestion script. -/
inductive Offer
  | literal (t : Text) (tooltip : Option Text)
  | integer (n : Int) (tooltip : Option Text)
  | textArgument (name : Text)
  | integerArgument (name : Text)
  | source
  | depth
  | remaining (t : Text)
  | lower (t : Text)
  | input (t : Text)
  | offset (delta : Int) (offers : List Offer)
  | refuse (message : Text)
  | runtimeFault (message : Text)

mutual
def Offer.run (c : Context Int) (d : Draft) : Offer → Except Fault Draft
  | .literal t tooltip => .ok (d.suggest t tooltip)
  | .integer n tooltip => .ok (d.suggestInteger n tooltip)
  | .textArgument name => (c.askString name).map fun t => d.suggest t none
  | .integerArgument name => (c.askInteger name).map fun n => d.suggestInteger n none
  | .source => .ok (d.suggestInteger c.source none)
  | .depth => .ok (d.suggestInteger c.matched.length none)
  | .remaining t => .ok (d.suggest (d.remaining ++ t) none)
  | .lower t => .ok (d.suggest (d.remainingLower ++ t) none)
  | .input t => .ok (d.suggest (c.input ++ t) none)
  | .offset delta offers =>
    match d.offset (d.start + delta) with
    | .error f => .error f
    | .ok e => (Offer.runAll c e offers).map d.add
  | .refuse message => .error (.custom message)
  | .runtimeFault message => .error (.runtime message)

def Offer.runAll (c : Context Int) (d : Draft) : List Offer → Except Fault Draft
  | [] => .ok d
  | o :: rest =>
    match Offer.run c d o with
    | .error f => .error f
    | .ok d => Offer.runAll c d rest
end

/-- The provider that a script of offers makes. -/
def provider (offers : List Offer) : Provider Int := fun c d =>
  match Offer.runAll c d offers with
  | .error f => .error f
  | .ok d => d.build

end CommandTree.Scripted
