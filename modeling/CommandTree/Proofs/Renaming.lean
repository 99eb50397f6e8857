import CommandTree.Completion
import CommandTree.Execution
import CommandTree.Proofs.Exploration

/-!
Other names for nodes. A parse only passes on the identities of the nodes that it matched, or tried in
vain: giving the nodes other identities goes through every step of a parse and of the search for a
place. Main statement: where no command and no modifier can tell the identities apart, a parse with
other identities runs to the same outcome.
-/

namespace CommandTree

variable {S C M : Type} {ρ : NodeId → NodeId}

def Match.rename (ρ : NodeId → NodeId) (m : Match) : Match := { m with node := ρ m.node }

namespace Frame

def rename (ρ : NodeId → NodeId) (f : Frame S) : Frame S :=
  { f with root := f.root.map ρ, matched := f.matched.map (Match.rename ρ) }

theorem rename_push (f : Frame S) (m : Match) :
    (f.push m).rename ρ = (f.rename ρ).push (m.rename ρ) := by
  simp [rename, push, Match.rename]

/-- Nodes that keep their identities. -/
theorem rename_id (f : Frame S) : f.rename id = f := by
  have hmatch : Match.rename id = id := rfl
  simp [rename, hmatch]

end Frame

def Context.rename (ρ : NodeId → NodeId) (c : Context S) : Context S :=
  ⟨c.toFrame.rename ρ, c.input⟩

theorem Context.rename_id (c : Context S) : c.rename id = c := by
  rw [rename, Frame.rename_id]

def Segment.rename (ρ : NodeId → NodeId) (s : Segment S C M) : Segment S C M :=
  { s with frame := s.frame.rename ρ }

theorem Segment.context_rename (s : Segment S C M) (input : Text) :
    (s.rename ρ).context input = (s.context input).rename ρ := rfl

namespace Chain

def rename (ρ : NodeId → NodeId) (c : Chain S C M) : Chain S C M :=
  ⟨c.first.rename ρ, c.later.map (Segment.rename ρ)⟩

theorem all_rename (c : Chain S C M) : (c.rename ρ).all = c.all.map (Segment.rename ρ) := rfl

theorem child?_rename (c : Chain S C M) : (c.rename ρ).child? = c.child?.map (rename ρ) := by
  rcases c with ⟨s, _ | ⟨t, rest⟩⟩ <;> rfl

end Chain

/-! Parses -/

namespace Parse

/-- The same parse of nodes with other identities. -/
def rename (ρ : NodeId → NodeId) (p : Parse S C M) : Parse S C M :=
  ⟨p.chain.rename ρ, p.reader, p.errors.map (Prod.map ρ id)⟩

theorem isDone_rename (p : Parse S C M) : (p.rename ρ).isDone = p.isDone := rfl

theorem isClean_rename (p : Parse S C M) : (p.rename ρ).isClean = p.isClean := by
  simp [isClean, rename]

theorem better_rename (p q : Parse S C M) :
    (p.rename ρ).better (q.rename ρ) = p.better q := by
  simp only [better, isDone_rename, isClean_rename]

/-- Which parse is the best does not depend on identities. -/
theorem rename_best (p : Parse S C M) (ps : List (Parse S C M)) :
    (p.best ps).rename ρ = (p.rename ρ).best (ps.map (rename ρ)) := by
  unfold best
  induction ps generalizing p with
  | nil => rfl
  | cons q qs ih =>
    rw [List.map_cons, List.foldl_cons, List.foldl_cons, better_rename]
    by_cases hb : q.better p = true
    · rw [if_pos hb, if_pos hb, ih]
    · rw [if_neg hb, if_neg hb, ih]

theorem deepest?_rename (p : Parse S C M) : (p.rename ρ).deepest? = p.deepest? := by
  have hsnd : (Prod.snd ∘ Prod.map ρ id : NodeId × SyntaxError → SyntaxError) = Prod.snd := rfl
  rw [deepest?, deepest?, rename, List.map_map, hsnd]

theorem leftover_rename (p : Parse S C M) : (p.rename ρ).leftover = p.leftover := by
  rw [leftover, leftover, deepest?_rename]
  rfl

end Parse

def Exploration.rename (ρ : NodeId → NodeId) : Exploration S C M → Exploration S C M
  | decided p => decided (p.rename ρ)
  | pending errors parses => pending (errors.map (Prod.map ρ id)) (parses.map (Parse.rename ρ))

def Trial.rename (ρ : NodeId → NodeId) : Trial S C M → Trial S C M
  | skipped => skipped
  | failed i error => failed (ρ i) error
  | decided p => decided (p.rename ρ)
  | candidate p => candidate (p.rename ρ)

theorem Exploration.rename_addTo (tried : Trial S C M) (e : Exploration S C M) :
    (tried.addTo e).rename ρ = (tried.rename ρ).addTo (e.rename ρ) := by
  cases tried <;> cases e <;> rfl

theorem Exploration.rename_conclude (e : Exploration S C M) (s : Segment S C M) (r : Reader) :
    (e.conclude s r).rename ρ = (e.rename ρ).conclude (s.rename ρ) r := by
  cases e with
  | decided p => rfl
  | pending errors parses =>
    cases parses with
    | nil => rfl
    | cons p ps => exact p.rename_best ps

/-! Places -/

namespace Place

def rename (ρ : NodeId → NodeId) (place : Place) : Place :=
  { place with parent := place.parent.map ρ }

theorem within_rename (start cursor : Int) (previous : Option NodeId) (ms : List Match) :
    within start cursor (previous.map ρ) (ms.map (Match.rename ρ)) =
      (within start cursor previous ms).map (rename ρ) := by
  induction ms generalizing previous with
  | nil => cases previous <;> rfl
  | cons m ms ih =>
    have hspan : (m.rename ρ).span = m.span := rfl
    rw [List.map_cons, within, within, hspan]
    by_cases hm : m.span.start ≤ cursor ∧ cursor ≤ m.span.stop
    · rw [if_pos hm, if_pos hm]
      rfl
    · rw [if_neg hm, if_neg hm, ← ih]
      rfl

theorem behind_rename (s : Segment S C M) : behind (s.rename ρ) = (behind s).rename ρ := by
  have hlast : (s.rename ρ).frame.matched.getLast? =
      s.frame.matched.getLast?.map (Match.rename ρ) := List.getLast?_map
  rw [behind, behind, hlast]
  cases s.frame.matched.getLast? <;> rfl

theorem locate_rename (cursor : Int) (s : Segment S C M) (later : List (Segment S C M)) :
    locate cursor (s.rename ρ) (later.map (Segment.rename ρ)) =
      (locate cursor s later).map (rename ρ) := by
  have hspan : ∀ s : Segment S C M, (s.rename ρ).frame.span = s.frame.span := fun _ => rfl
  have hwithin : ∀ s : Segment S C M, within (s.rename ρ).frame.span.start cursor
      (s.rename ρ).frame.root (s.rename ρ).frame.matched =
        (within s.frame.span.start cursor s.frame.root s.frame.matched).map (rename ρ) :=
    fun _ => within_rename ..
  induction later generalizing s with
  | nil =>
    rw [List.map_nil, locate, locate, hwithin, behind_rename, hspan]
    split_ifs <;> rfl
  | cons next rest ih =>
    rw [List.map_cons, locate, locate, hwithin, ih, hspan]
    split_ifs <;> rfl

end Place

/-! Runs -/

/-- Commands and modifiers that cannot tell identities apart. -/
structure Actions.Blind (ρ : NodeId → NodeId) (acts : Actions S C M) : Prop where
  run : ∀ command context, acts.run command (context.rename ρ) = acts.run command context
  derive : ∀ modifier context,
    acts.derive modifier (context.rename ρ) = acts.derive modifier context

/-- Identities that stay as they are tell nothing. -/
theorem Actions.blind_id (acts : Actions S C M) : acts.Blind id where
  run _ context := by rw [context.rename_id]
  derive _ context := by rw [context.rename_id]

def Event.rename (ρ : NodeId → NodeId) : Event S C M → Event S C M
  | ran command context => ran command (context.rename ρ)
  | derived modifier context => derived modifier (context.rename ρ)
  | notified context success value => notified (context.rename ρ) success value
  | logged line => logged line

namespace Progress

def rename (ρ : NodeId → NodeId) (p : Progress S C M) : Progress S C M :=
  { p with journal := p.journal.map (Event.rename ρ) }

@[simp] theorem outcome_rename (p : Progress S C M) : (p.rename ρ).outcome = p.outcome := rfl

@[simp] theorem found_rename (p : Progress S C M) : (p.rename ρ).found = p.found := rfl

theorem rename_note (p : Progress S C M) (e : Event S C M) :
    (p.note e).rename ρ = (p.rename ρ).note (e.rename ρ) := by
  simp [rename, note]

theorem rename_succeed (p : Progress S C M) (context : Context S) (value : Int32) :
    (p.succeed context value).rename ρ = (p.rename ρ).succeed (context.rename ρ) value := by
  rw [succeed, rename_note]
  rfl

theorem rename_record (p : Progress S C M) (headline : String) (e : SyntaxError) :
    (p.record headline e).rename ρ = (p.rename ρ).record headline e := by
  rw [record, rename_note]
  rfl

end Progress

namespace Chain

/-- A step of a run for nodes with other identities. -/
def Advance.rename (ρ : NodeId → NodeId) (a : Advance S C M) : Advance S C M :=
  (a.1.map (List.map (Chain.rename ρ)), a.2.rename ρ)

theorem rename_fail (p : Progress S C M) (headline : String) (context : Context S) (f : Fault) :
    fail (p.rename ρ) headline (context.rename ρ) f =
      Advance.rename ρ (fail p headline context f) := by
  cases f with
  | rejected e =>
    have hnote : (p.rename ρ).note (.notified (context.rename ρ) false 0) =
        (p.note (.notified context false 0)).rename ρ := (p.rename_note (.notified ..)).symm
    simp only [fail, hnote, ← Progress.rename_record, Progress.outcome_rename]
    split_ifs <;> rfl
  | _ => rfl

variable {acts : Actions S C M}

theorem finish_rename (h : acts.Blind ρ) (input : Text) (s : Segment S C M) (p : Progress S C M) :
    finish acts input (s.rename ρ) (p.rename ρ) = Advance.rename ρ (finish acts input s p) := by
  have hcommand : (s.rename ρ).command = s.command := rfl
  rw [finish, finish, hcommand]
  cases s.command with
  | none => rfl
  | some command =>
    have hnote : (p.rename ρ).find.note (.ran command ((s.context input).rename ρ)) =
        (p.find.note (.ran command (s.context input))).rename ρ :=
      (p.find.rename_note (.ran ..)).symm
    simp only [s.context_rename, hnote, h.run]
    cases acts.run command (s.context input) with
    | ok value =>
      simp only [← Progress.rename_succeed]
      rfl
    | error f => exact rename_fail ..

theorem withSource_rename (c : Chain S C M) (source : S) :
    (c.rename ρ).withSource source = (c.withSource source).rename ρ := rfl

theorem follow_rename (h : acts.Blind ρ) (input : Text) (s : Segment S C M) (child : Chain S C M)
    (p : Progress S C M) : follow acts input (s.rename ρ) (child.rename ρ) (p.rename ρ) =
      Advance.rename ρ (follow acts input s child p) := by
  have hempty : (child.rename ρ).first.frame.matched.isEmpty =
      child.first.frame.matched.isEmpty := List.isEmpty_map
  have henter : (p.rename ρ).enter (s.rename ρ).forks = (p.enter s.forks).rename ρ := rfl
  have hmodifier : (s.rename ρ).modifier = s.modifier := rfl
  simp only [follow, hempty, henter, hmodifier]
  generalize p.enter s.forks = p
  split_ifs
  · rfl
  · cases s.modifier with
    | none => rfl
    | some modifier =>
      have hnote : (p.rename ρ).find.note (.derived modifier ((s.context input).rename ρ)) =
          (p.find.note (.derived modifier (s.context input))).rename ρ :=
        (p.find.rename_note (.derived ..)).symm
      simp only [s.context_rename, hnote, h.derive]
      cases acts.derive modifier (s.context input) with
      | ok sources => simp [Advance.rename, Except.map, Function.comp_def, withSource_rename]
      | error f => exact rename_fail ..

theorem advance_rename (h : acts.Blind ρ) (input : Text) (c : Chain S C M) (p : Progress S C M) :
    (c.rename ρ).advance acts input (p.rename ρ) = Advance.rename ρ (c.advance acts input p) := by
  rw [advance, advance, child?_rename]
  cases c.child? with
  | none => exact finish_rename h ..
  | some child => exact follow_rename h ..

theorem advanceAll_rename (h : acts.Blind ρ) (input : Text) (cs : List (Chain S C M))
    (p : Progress S C M) : advanceAll acts input (cs.map (rename ρ)) (p.rename ρ) =
      Advance.rename ρ (advanceAll acts input cs p) := by
  induction cs generalizing p with
  | nil => rfl
  | cons c cs ih =>
    rw [List.map_cons, advanceAll, advanceAll, advance_rename h]
    rcases c.advance acts input p with ⟨f | next, p⟩
    · rfl
    · dsimp only [Advance.rename, Except.map]
      rw [ih]
      rcases advanceAll acts input cs p with ⟨f | more, p⟩
      · rfl
      · simp [Advance.rename, Except.map]

theorem rounds_rename (h : acts.Blind ρ) (input : Text) (n : Nat) (cs : List (Chain S C M))
    (p : Progress S C M) : rounds acts input n (cs.map (rename ρ)) (p.rename ρ) =
      ((rounds acts input n cs p).1, (rounds acts input n cs p).2.rename ρ) := by
  induction n generalizing cs p with
  | zero => rfl
  | succ n ih =>
    rw [rounds, rounds, advanceAll_rename h]
    rcases advanceAll acts input cs p with ⟨f | next, p⟩
    · rfl
    · exact ih next p

end Chain

/-- A parse with other identities runs to the same outcome, and all that a bystander could notice
differs in the identities only. -/
theorem Parse.execute_rename {acts : Actions S C M} (h : acts.Blind ρ) (p : Parse S C M) :
    (p.rename ρ).execute acts =
      ((p.execute acts).1, (p.execute acts).2.map (Event.rename ρ)) := by
  have hreader : (p.rename ρ).reader = p.reader := rfl
  have hfirst : (p.rename ρ).chain.first.context p.reader.input =
      (p.chain.first.context p.reader.input).rename ρ := p.chain.first.context_rename _
  have hlength : (p.rename ρ).chain.all.length = p.chain.all.length := by
    rw [rename, Chain.all_rename, List.length_map]
  have hrounds := Chain.rounds_rename h p.reader.input p.chain.all.length [p.chain] .initial
  rw [execute, execute, hreader, hlength, leftover_rename]
  split_ifs
  · rfl
  · change Chain.rounds acts _ _ [(p.rename ρ).chain] .initial = _ at hrounds
    simp only [hrounds]
    rcases Chain.rounds acts p.reader.input p.chain.all.length [p.chain] .initial with
      ⟨f | ⟨⟩, progress⟩
    · rfl
    · have hnote : (progress.rename ρ).note
          (.notified ((p.chain.first.context p.reader.input).rename ρ) false 0) =
          (progress.note (.notified (p.chain.first.context p.reader.input) false 0)).rename ρ :=
        (progress.rename_note (.notified ..)).symm
      simp only [Progress.found_rename, Progress.outcome_rename, hfirst, hnote]
      cases progress.found <;> rfl

end CommandTree
