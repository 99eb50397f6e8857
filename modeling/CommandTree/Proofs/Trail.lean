import CommandTree.Grammar
import CommandTree.Proofs.Bindings

/-!
Trails: which nodes a parse went through below one root, where each of them stands and which value
it took. A trail determines the frame and the segment that the parse has there, and matching one
more node makes the trail one step longer.
-/

namespace CommandTree

/-- A node where it stands in an input, with the value that an argument took there. -/
structure Step (S C M : Type) where
  node : Tree S C M
  span : Span
  value : Option Value

namespace Step

variable {S C M : Type}

def toMatch (st : Step S C M) : Match := ⟨st.node.id, st.node.tag, st.span⟩

/-- The name that a step binds, and to what. -/
def binding? (st : Step S C M) : Option (Text × Binding) :=
  match st.node.traits.kind, st.value with
  | .argument name _ _, some v => some (name, ⟨st.span, v⟩)
  | _, _ => none

/-- The node stands there: a word covers exactly its own text, and an argument has the value that
its type reads from the start of the span up to its end. -/
inductive Stands (input : Text) : Step S C M → Prop
  | word {t : Tree S C M} {word : Text} {start : Int} (kind : t.traits.kind = .literal word)
      (covers : Span.get? ⟨start, start + word.length⟩ input = some word) :
      Stands input ⟨t, ⟨start, start + word.length⟩, none⟩
  | argument {t : Tree S C M} {name : Text} {type : ArgumentType} {provider : Option (Provider S)}
      {start : Int} {n : Nat} {v : Value} (kind : t.traits.kind = .argument name type provider)
      (reads : type.parse ⟨input, start⟩ = (.ok v, n)) :
      Stands input ⟨t, ⟨start, start + n⟩, some v⟩

theorem Stands.start_le_stop {input : Text} {st : Step S C M} (h : st.Stands input) :
    st.span.start ≤ st.span.stop := by
  cases h with
  | word | argument => dsimp only; omega

theorem Stands.word_inv {input : Text} {t : Tree S C M} {word : Text} {start stop : Int}
    {v : Option Value} (h : Stands input ⟨t, ⟨start, stop⟩, v⟩)
    (hk : t.traits.kind = .literal word) :
    stop = start + word.length ∧ v = none ∧
      Span.get? ⟨start, start + word.length⟩ input = some word := by
  cases h with
  | word hk' hcov =>
    obtain rfl := Kind.literal.inj (hk'.symm.trans hk)
    exact ⟨rfl, rfl, hcov⟩
  | argument hk' _ => exact absurd (hk'.symm.trans hk) (by simp)

theorem Stands.argument_inv {input : Text} {t : Tree S C M} {name : Text} {type : ArgumentType}
    {provider : Option (Provider S)} {start stop : Int} {v : Option Value}
    (h : Stands input ⟨t, ⟨start, stop⟩, v⟩) (hk : t.traits.kind = .argument name type provider) :
    ∃ w n, stop = start + (n : Nat) ∧ v = some w ∧ type.parse ⟨input, start⟩ = (.ok w, n) := by
  cases h with
  | word hk' _ => exact absurd (hk'.symm.trans hk) (by simp)
  | argument hk' hread =>
    obtain ⟨rfl, rfl, rfl⟩ := Kind.argument.inj (hk'.symm.trans hk)
    exact ⟨_, _, rfl, rfl, hread⟩

/-- What stands at a position is determined by the node. -/
theorem Stands.unique {input : Text} {t : Tree S C M} {start stop stop' : Int}
    {v v' : Option Value} (h : Stands input ⟨t, ⟨start, stop⟩, v⟩)
    (h' : Stands input ⟨t, ⟨start, stop'⟩, v'⟩) : stop = stop' ∧ v = v' := by
  cases h with
  | word hk _ =>
    obtain ⟨rfl, rfl, -⟩ := h'.word_inv hk
    exact ⟨rfl, rfl⟩
  | argument hk hread =>
    obtain ⟨w, n, rfl, rfl, hread'⟩ := h'.argument_inv hk
    obtain ⟨hv, rfl⟩ := Prod.mk.inj (hread.symm.trans hread')
    exact ⟨rfl, congrArg some (Except.ok.inj hv)⟩

end Step

/-- The way of a parse below one root, which a redirect knows by its identity. -/
structure Trail (S C M : Type) where
  source : S
  root : NodeId
  top : Tree S C M
  position : Int
  steps : List (Step S C M)

namespace Trail

variable {S C M : Type}

/-- A trail that has not begun. -/
def start (source : S) (root : NodeId) (top : Tree S C M) (position : Int) : Trail S C M :=
  ⟨source, root, top, position, []⟩

def last? (tr : Trail S C M) : Option (Step S C M) := tr.steps.getLast?

/-- The node that the trail has come to. -/
def tip (tr : Trail S C M) : Tree S C M := (tr.last?.map Step.node).getD tr.top

/-- The position that the trail has come to. -/
def stop (tr : Trail S C M) : Int := (tr.last?.map fun st => st.span.stop).getD tr.position

/-- What the steps bind, the last step of a name winning. -/
def bindings (tr : Trail S C M) : Bindings :=
  .bindAll (tr.steps.filterMap Step.binding?)

/-- The frame of a parse that went along the trail. -/
def frame (tr : Trail S C M) : Frame S :=
  ⟨tr.source, some tr.root, ⟨tr.position, tr.stop⟩, tr.steps.map Step.toMatch, tr.bindings⟩

/-- The segment of a parse that went along the trail: what follows is up to its last node. -/
def segment (tr : Trail S C M) : Segment S C M :=
  ⟨tr.frame, tr.last?.bind fun st => st.node.command,
    tr.last?.bind fun st => st.node.traits.modifier,
    (tr.last?.map fun st => st.node.traits.forks).getD false⟩

/-- The trail up to a number of steps. -/
def upTo (tr : Trail S C M) (n : Nat) : Trail S C M := { tr with steps := tr.steps.take n }

def snoc (tr : Trail S C M) (st : Step S C M) : Trail S C M :=
  { tr with steps := tr.steps ++ [st] }

def append (tr : Trail S C M) (sts : List (Step S C M)) : Trail S C M :=
  { tr with steps := tr.steps ++ sts }

@[simp] theorem last?_snoc (tr : Trail S C M) (st : Step S C M) :
    (tr.snoc st).last? = some st := by
  simp [last?, snoc]

@[simp] theorem tip_snoc (tr : Trail S C M) (st : Step S C M) : (tr.snoc st).tip = st.node := by
  simp [tip]

@[simp] theorem stop_snoc (tr : Trail S C M) (st : Step S C M) :
    (tr.snoc st).stop = st.span.stop := by
  simp [stop]

@[simp] theorem position_snoc (tr : Trail S C M) (st : Step S C M) :
    (tr.snoc st).position = tr.position := rfl

@[simp] theorem append_nil (tr : Trail S C M) : tr.append [] = tr := by
  simp [append]

@[simp] theorem append_cons (tr : Trail S C M) (st : Step S C M) (sts : List (Step S C M)) :
    tr.append (st :: sts) = (tr.snoc st).append sts := by
  simp [append, snoc]

theorem bindings_snoc (tr : Trail S C M) (st : Step S C M) :
    (tr.snoc st).bindings =
      match st.binding? with
      | some (name, b) => tr.bindings.insert name b
      | none => tr.bindings := by
  cases h : st.binding? <;> simp [bindings, Bindings.bindAll, snoc, h]

end Trail

end CommandTree
