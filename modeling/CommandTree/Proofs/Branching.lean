import CommandTree.Execution
import CommandTree.Proofs.Exploration
import Mathlib

/-!
Running a parse as a computation with lists of sources. Frame by frame every source is replaced by
those that the modifier derives from it, and what arrives at the last frame has the command run once
each. Main statement: the breadth-wise run of a parse has the outcome and the journal of this
computation.
-/

namespace CommandTree

/-- What is done for every source at a frame: an action, and what is noted before it and after its
success. -/
structure Task (S C M T : Type) where
  headline : String
  call : Context S → Event S C M
  act : Context S → Except Fault (List T)
  report : Context S → List T → List (Event S C M)

namespace Task

variable {S C M T : Type}

/-- Derives the sources of the next frame. -/
def derive (acts : Actions S C M) (modifier : M) : Task S C M S where
  headline := "redirect modifier"
  call := .derived modifier
  act := acts.derive modifier
  report _ _ := []

/-- Runs a command for its result. -/
def run (acts : Actions S C M) (command : C) : Task S C M Int32 where
  headline := "command"
  call := .ran command
  act context := (acts.run command context).map fun value => [value]
  report context values := values.map (.notified context true)

/-- The line of the log about a branch that failed. -/
def failure (headline : String) (e : SyntaxError) : Text :=
  logLine (text headline ++ text " failed in forked branch: " ++ e.describe)

/-- Does the task for one context after another. Behind a fork a syntax error is put aside, and its
branch has no yield; without one it ends the run, and so does every other fault. -/
def each (task : Task S C M T) (forked : Bool) :
    List (Context S) → Except Fault (List T × List SyntaxError) × List (Event S C M)
  | [] => (.ok ([], []), [])
  | context :: rest =>
    match task.act context with
    | .ok ts =>
      let (outcome, events) := task.each forked rest
      (outcome.map fun (us, es) => (ts ++ us, es),
        task.call context :: task.report context ts ++ events)
    | .error (.rejected e) =>
      if forked then
        let (outcome, events) := task.each forked rest
        (outcome.map fun (us, es) => (us, e :: es),
          task.call context :: .notified context false 0 ::
            .logged (failure task.headline e) :: events)
      else (.error (.rejected e), [task.call context, .notified context false 0])
    | .error f => (.error f, [task.call context])

end Task

/-- What arrives at a frame: its sources in order, whether they come through a fork, and the
failures put aside on the way. -/
structure Arrival (S : Type) where
  sources : List S
  forked : Bool
  failures : List SyntaxError

namespace Segment

variable {S C M : Type}

/-- The contexts of a frame for several sources. -/
def contexts (s : Segment S C M) (input : Text) (sources : List S) : List (Context S) :=
  sources.map fun source => (s.withSource source).context input

/-- Goes from a frame to the next one. A frame that no source reaches counts for nothing, and a next
frame without nodes is not entered. -/
def cross (acts : Actions S C M) (input : Text) (s next : Segment S C M) (a : Arrival S) :
    Except Fault (Arrival S) × List (Event S C M) :=
  if a.sources.isEmpty then (.ok a, [])
  else
    let forked := a.forked || s.forks
    if next.frame.matched.isEmpty then (.ok ⟨[], forked, a.failures⟩, [])
    else
      match s.modifier with
      | none => (.ok ⟨a.sources, forked, a.failures⟩, [])
      | some modifier =>
        let (outcome, events) :=
          (Task.derive acts modifier).each forked (s.contexts input a.sources)
        (outcome.map fun (sources, es) => ⟨sources, forked, a.failures ++ es⟩, events)

/-- Goes through all frames up to the last one. -/
def journey (acts : Actions S C M) (input : Text) (s : Segment S C M) :
    List (Segment S C M) → Arrival S → Except Fault (Arrival S) × List (Event S C M)
  | [], a => (.ok a, [])
  | next :: later, a =>
    match s.cross acts input next a with
    | (.error f, events) => (.error f, events)
    | (.ok a, events) =>
      let (outcome, more) := next.journey acts input later a
      (outcome, events ++ more)

/-- Runs the command of the last frame, if it has one, for all sources that arrive. -/
def arrive (acts : Actions S C M) (input : Text) (s : Segment S C M) (a : Arrival S) :
    Except Fault Outcome × List (Event S C M) :=
  match s.command with
  | none => (.ok ⟨0, 0, a.forked, a.failures⟩, [])
  | some command =>
    let (outcome, events) := (Task.run acts command).each a.forked (s.contexts input a.sources)
    (outcome.map fun (values, es) => ⟨values.sum, .ofNat values.length, a.forked, a.failures ++ es⟩,
      events)

/-- Nothing arrives at a next frame unless something arrived before, and the next frame has
nodes. -/
theorem cross_sources {acts : Actions S C M} {input : Text} {s next : Segment S C M}
    {a a' : Arrival S} {events : List (Event S C M)}
    (h : s.cross acts input next a = (.ok a', events)) :
    a'.sources.isEmpty = true ∨
      (a.sources.isEmpty = false ∧ next.frame.matched.isEmpty = false) := by
  unfold cross at h
  split at h
  · obtain ⟨ha, -⟩ := Prod.mk.inj h
    obtain rfl := Except.ok.inj ha
    exact .inl (by assumption)
  · rename_i hsources
    split at h
    · obtain ⟨ha, -⟩ := Prod.mk.inj h
      obtain rfl := Except.ok.inj ha
      exact .inl rfl
    · rename_i hnodes
      exact .inr ⟨by simpa using hsources, by simpa using hnodes⟩

end Segment

namespace Chain

variable {S C M : Type}

/-- Goes through the frames, and runs the command of the last one. -/
def travel (acts : Actions S C M) (input : Text) (c : Chain S C M) (a : Arrival S) :
    Except Fault Outcome × List (Event S C M) :=
  match c.first.journey acts input c.later a with
  | (.error f, events) => (.error f, events)
  | (.ok a, events) =>
    let (outcome, more) := c.last.arrive acts input a
    (outcome, events ++ more)

/-- Whether the first frame goes on: with nodes of a next one, or with a command. -/
def leads (c : Chain S C M) : Bool :=
  match c.later with
  | [] => c.first.command.isSome
  | next :: _ => !next.frame.matched.isEmpty

end Chain

/-- What arrives at the last frame of a parse. -/
def Parse.arrival {S C M : Type} (acts : Actions S C M) (p : Parse S C M) :
    Except Fault (Arrival S) × List (Event S C M) :=
  p.chain.first.journey acts p.reader.input p.chain.later ⟨[p.chain.first.frame.source], false, []⟩

/-- Runs a parse that left nothing over by lists of sources. -/
def Parse.branching {S C M : Type} (acts : Actions S C M) (p : Parse S C M) :
    Except Fault Outcome × List (Event S C M) :=
  let input := p.reader.input
  if p.chain.leads then
    let (outcome, events) := p.chain.travel acts input ⟨[p.chain.first.frame.source], false, []⟩
    (outcome.map fun o => if o.forked then { o with value := o.successes } else o, events)
  else
    (.error (p.reader.reject .unknownCommand), [.notified (p.chain.first.context input) false 0])

namespace Progress

variable {S C M : Type}

/-- The progress with more results, failures and events. -/
def add (p : Progress S C M) (value successes : Int32) (failures : List SyntaxError)
    (events : List (Event S C M)) : Progress S C M :=
  { p with
    outcome := { p.outcome with
      value := p.outcome.value + value
      successes := p.outcome.successes + successes
      failures := p.outcome.failures ++ failures }
    journal := p.journal ++ events }

@[simp] theorem forked_add (p : Progress S C M) (value successes : Int32)
    (failures : List SyntaxError) (events : List (Event S C M)) :
    (p.add value successes failures events).outcome.forked = p.outcome.forked := rfl

@[simp] theorem journal_add (p : Progress S C M) (value successes : Int32)
    (failures : List SyntaxError) (events : List (Event S C M)) :
    (p.add value successes failures events).journal = p.journal ++ events := rfl

@[simp] theorem add_zero (p : Progress S C M) : p.add 0 0 [] [] = p := by
  simp [add]

@[simp] theorem add_add (p : Progress S C M) (v w m n : Int32) (es fs : List SyntaxError)
    (xs ys : List (Event S C M)) :
    (p.add v m es xs).add w n fs ys = p.add (v + w) (m + n) (es ++ fs) (xs ++ ys) := by
  simp [add, Int32.add_assoc]

theorem note_eq_add (p : Progress S C M) (e : Event S C M) : p.note e = p.add 0 0 [] [e] := by
  simp [note, add]

theorem succeed_eq_add (p : Progress S C M) (context : Context S) (value : Int32) :
    p.succeed context value = p.add value 1 [] [.notified context true value] := by
  simp [succeed, note, add]

theorem record_eq_add (p : Progress S C M) (headline : String) (e : SyntaxError) :
    p.record headline e = p.add 0 0 [e] [.logged (Task.failure headline e)] := by
  simp [record, note, add, Task.failure]

theorem find_of_found {p : Progress S C M} (h : p.found = true) : p.find = p := by
  cases p
  subst h
  rfl

end Progress

theorem sum_replicate_int32 (n : Nat) (w : Int32) : (List.replicate n w).sum = .ofNat n * w := by
  induction n with
  | zero => simp
  | succ n ih =>
    rw [List.replicate_succ, List.sum_cons, ih, Int32.ofNat_add, Int32.add_mul, Int32.add_comm]
    congr 1
    exact (Int32.one_mul w).symm

/-- No running sum of the results leaves 32 bits. -/
def SumsFit (values : List Int32) : Prop :=
  ∀ front ∈ values.inits, Int32.minValue.toInt ≤ (front.map Int32.toInt).sum ∧
    (front.map Int32.toInt).sum ≤ Int32.maxValue.toInt

instance (values : List Int32) : Decidable (SumsFit values) :=
  inferInstanceAs (Decidable (∀ front ∈ values.inits, _))

theorem sum_eq_ofInt (values : List Int32) : values.sum = .ofInt (values.map Int32.toInt).sum := by
  induction values with
  | nil => rfl
  | cons v vs ih =>
    rw [List.sum_cons, ih, List.map_cons, List.sum_cons, Int32.ofInt_add, Int32.ofInt_toInt]

/-- Where nothing leaves 32 bits on the way, the sum in 32 bits is the sum. -/
theorem toInt_sum {values : List Int32} (h : SumsFit values) :
    values.sum.toInt = (values.map Int32.toInt).sum := by
  obtain ⟨hmin, hmax⟩ := h values ((List.mem_inits values values).mpr (List.prefix_refl values))
  rw [show Int32.minValue.toInt = -2147483648 from rfl] at hmin
  rw [show Int32.maxValue.toInt = 2147483647 from rfl] at hmax
  rw [sum_eq_ofInt, Int32.toInt_ofInt_of_le (by omega) (by omega)]

-- The sum of all fits, but one on the way does not.
example : ¬ SumsFit [Int32.maxValue, 1, -1] := by decide

/-- A run does what was computed: it ends with the same fault and notes the same events, or it comes
to what belongs to the result. -/
inductive Follows {S C M α β : Type} (p : Progress S C M)
    (done : α → List (Event S C M) → β × Progress S C M) :
    Except Fault α × List (Event S C M) → Except Fault β × Progress S C M → Prop
  | failed {f : Fault} {events : List (Event S C M)} {p' : Progress S C M}
      (journal : p'.journal = p.journal ++ events) :
      Follows p done (.error f, events) (.error f, p')
  | returned {a : α} {events : List (Event S C M)} {b : β} {p' : Progress S C M}
      (result : done a events = (b, p')) : Follows p done (.ok a, events) (.ok b, p')

theorem Follows.map {S C M α α' β : Type} {p q : Progress S C M}
    {done : α → List (Event S C M) → β × Progress S C M}
    {done' : α' → List (Event S C M) → β × Progress S C M}
    {computed : Except Fault α × List (Event S C M)} {ran : Except Fault β × Progress S C M}
    (h : Follows q done computed ran) (g : α → α') (hq : q.journal = p.journal)
    (hdone : ∀ a events, done' (g a) events = done a events) :
    Follows p done' (computed.1.map g, computed.2) ran := by
  cases h with
  | failed hjournal => exact .failed (by rw [hjournal, hq])
  | returned hresult => exact .returned ((hdone _ _).trans hresult)

namespace Chain

variable {S C M T : Type}

/-- A failure, told by whether its branch is one of several. -/
theorem fail_rejected (p : Progress S C M) (headline : String) (context : Context S)
    (e : SyntaxError) :
    fail p headline context (.rejected e) =
      if p.outcome.forked then
        (.ok [], p.add 0 0 [e] [.notified context false 0, .logged (Task.failure headline e)])
      else (.error (.rejected e), p.add 0 0 [] [.notified context false 0]) := by
  unfold fail
  simp only [Progress.note_eq_add, Progress.record_eq_add, Progress.forked_add, Progress.add_add]
  rfl

/-- A single branch is advanced by doing a task in its context: each item of the yield goes on, is
worth something and counts. -/
def Drives (acts : Actions S C M) (input : Text) (task : Task S C M T) (forked : Bool)
    (branch : S → Chain S C M) (context : S → Context S) (next : T → List (Chain S C M))
    (worth count : T → Int32) : Prop :=
  ∀ (source : S) (p : Progress S C M), p.found = true → p.outcome.forked = forked →
    (branch source).advance acts input p =
      match task.act (context source) with
      | .ok ts => (.ok (ts.flatMap next), p.add (ts.map worth).sum (ts.map count).sum []
          (task.call (context source) :: task.report (context source) ts))
      | .error f =>
        fail (p.add 0 0 [] [task.call (context source)]) task.headline (context source) f

/-- If a single branch is advanced by doing a task, then so are many branches in turn. -/
theorem advanceAll_each {acts : Actions S C M} {input : Text} {task : Task S C M T} {forked : Bool}
    {branch : S → Chain S C M} {context : S → Context S} {next : T → List (Chain S C M)}
    {worth count : T → Int32}
    (hstep : Drives acts input task forked branch context next worth count)
    (sources : List S) (p : Progress S C M) (hfound : p.found = true)
    (hforked : p.outcome.forked = forked) :
    Follows p (fun r events =>
        (r.1.flatMap next, p.add (r.1.map worth).sum (r.1.map count).sum r.2 events))
      (task.each forked (sources.map context)) (advanceAll acts input (sources.map branch) p) := by
  induction sources generalizing p with
  | nil => exact .returned (by simp)
  | cons source sources ih =>
    rw [List.map_cons, List.map_cons, advanceAll, hstep source p hfound hforked, Task.each]
    cases hact : task.act (context source) with
    | ok ts =>
      dsimp only
      have hrest := ih (p.add (ts.map worth).sum (ts.map count).sum []
        (task.call (context source) :: task.report (context source) ts)) hfound hforked
      generalize task.each forked (sources.map context) = computed, advanceAll acts input
        (sources.map branch) _ = ran at hrest ⊢
      cases hrest with
      | failed hjournal => exact .failed (by simp [hjournal])
      | returned hresult =>
        obtain ⟨rfl, rfl⟩ := Prod.mk.inj hresult
        exact .returned (by simp)
    | error f =>
      cases f with
      | rejected e =>
        dsimp only
        rw [fail_rejected, Progress.forked_add, hforked]
        cases forked with
        | false =>
          refine .failed ?_
          simp
        | true =>
          have hrest := ih ((p.add 0 0 [] [task.call (context source)]).add 0 0 [e]
            [.notified (context source) false 0, .logged (Task.failure task.headline e)])
            hfound hforked
          simp only [if_true]
          generalize task.each true (sources.map context) = computed, advanceAll acts input
            (sources.map branch) _ = ran at hrest ⊢
          cases hrest with
          | failed hjournal => exact .failed (by simp [hjournal])
          | returned hresult =>
            obtain ⟨rfl, rfl⟩ := Prod.mk.inj hresult
            exact .returned (by simp)
      | _ =>
        refine .failed ?_
        simp

theorem follow_modifier (acts : Actions S C M) (input : Text) (s : Segment S C M)
    (child : Chain S C M) {modifier : M} (hn : child.first.frame.matched.isEmpty = false)
    (hm : s.modifier = some modifier) (p : Progress S C M) :
    follow acts input s child p =
      match acts.derive modifier (s.context input) with
      | .ok sources => (.ok (sources.map child.withSource),
          (p.enter s.forks).find.note (.derived modifier (s.context input)))
      | .error f => fail ((p.enter s.forks).find.note (.derived modifier (s.context input)))
          "redirect modifier" (s.context input) f := by
  cases hact : acts.derive modifier (s.context input) <;> simp [follow, hn, hm, hact]

theorem derive_drives (acts : Actions S C M) (input : Text) {s next : Segment S C M}
    (later : List (Segment S C M)) {modifier : M} {forked : Bool}
    (hn : next.frame.matched.isEmpty = false) (hm : s.modifier = some modifier)
    (hf : (forked || s.forks) = forked) :
    Drives acts input (Task.derive acts modifier) forked (withSource ⟨s, next :: later⟩)
      (fun source => (s.withSource source).context input)
      (fun source => [withSource ⟨next, later⟩ source]) (fun _ => 0) fun _ => 0 := by
  intro source p hfound hforked
  subst hforked
  have henter : p.enter (s.withSource source).forks = p := by
    rw [Progress.enter, show (s.withSource source).forks = s.forks from rfl, hf]
  have h := follow_modifier acts input (s.withSource source) ⟨next, later⟩ hn hm p
  rw [henter, Progress.find_of_found hfound, Progress.note_eq_add] at h
  refine h.trans ?_
  cases hact : acts.derive modifier ((s.withSource source).context input) with
  | ok sources => simp [Task.derive, hact, ← List.map_eq_flatMap, sum_replicate_int32]
  | error f => simp [Task.derive, hact]

theorem run_drives (acts : Actions S C M) (input : Text) {s : Segment S C M} {command : C}
    (forked : Bool) (hc : s.command = some command) :
    Drives acts input (Task.run acts command) forked (withSource ⟨s, []⟩)
      (fun source => (s.withSource source).context input) (fun _ => []) id fun _ => 1 := by
  intro source p hfound _
  have h : (withSource ⟨s, []⟩ source).advance acts input p =
      finish acts input (s.withSource source) p := rfl
  rw [h, finish, show (s.withSource source).command = some command from hc]
  dsimp only
  rw [Progress.find_of_found hfound, Progress.note_eq_add]
  cases hact : acts.run command ((s.withSource source).context input) with
  | ok value => simp [Task.run, hact, Except.map, Progress.succeed_eq_add]
  | error f => simp [Task.run, hact, Except.map]

/-- Branches that all go on, and all change the progress in the same way. -/
theorem advanceAll_uniform {acts : Actions S C M} {input : Text} {branch : S → Chain S C M}
    {next : S → List (Chain S C M)} {change : Progress S C M → Progress S C M}
    (hstep : ∀ source p, (branch source).advance acts input p = (.ok (next source), change p))
    (hchange : ∀ p, change (change p) = change p) (source : S) (sources : List S)
    (p : Progress S C M) :
    advanceAll acts input ((source :: sources).map branch) p =
      (.ok ((source :: sources).flatMap next), change p) := by
  induction sources generalizing source p with
  | nil => simp [advanceAll, hstep]
  | cons source' sources ih =>
    rw [List.map_cons, advanceAll, hstep]
    dsimp only
    rw [ih, hchange]
    rfl

/-- The progress made before counts only through its effect on the first branch. -/
theorem advanceAll_congr {acts : Actions S C M} {input : Text} {c : Chain S C M}
    {p q : Progress S C M} (h : c.advance acts input p = c.advance acts input q)
    (cs : List (Chain S C M)) :
    advanceAll acts input (c :: cs) p = advanceAll acts input (c :: cs) q := by
  rw [advanceAll, advanceAll, h]

/-- All branches of one level are copies of one chain with different sources; advancing them crosses
to the next frame. -/
theorem advanceAll_cross (acts : Actions S C M) (input : Text) (s next : Segment S C M)
    (later : List (Segment S C M)) (sources : List S) (p : Progress S C M) :
    Follows p (fun a events => (a.sources.map (withSource ⟨next, later⟩),
        ⟨{ p.outcome with forked := a.forked, failures := a.failures },
          p.found || (!sources.isEmpty && !next.frame.matched.isEmpty), p.journal ++ events⟩))
      (s.cross acts input next ⟨sources, p.outcome.forked, p.outcome.failures⟩)
      (advanceAll acts input (sources.map (withSource ⟨s, next :: later⟩)) p) := by
  cases sources with
  | nil => exact .returned (by simp)
  | cons source sources =>
    simp only [Segment.cross, List.isEmpty_cons, Bool.false_eq_true, if_false]
    cases hn : next.frame.matched.isEmpty with
    | true =>
      have hstep : ∀ (source : S) (p : Progress S C M),
          (withSource ⟨s, next :: later⟩ source).advance acts input p =
            (.ok [], p.enter s.forks) := by
        intro source p
        simp [advance, withSource, child?, follow, hn, Segment.withSource]
      rw [advanceAll_uniform hstep (by simp [Progress.enter]) source sources p]
      exact .returned (by simp [Progress.enter])
    | false =>
      cases hm : s.modifier with
      | none =>
        have hstep : ∀ (source : S) (p : Progress S C M),
            (withSource ⟨s, next :: later⟩ source).advance acts input p =
              (.ok [withSource ⟨next, later⟩ source], (p.enter s.forks).find) := by
          intro source p
          simp [advance, withSource, child?, follow, hn, Segment.withSource, hm]
        rw [advanceAll_uniform hstep (by simp [Progress.enter, Progress.find]) source sources p]
        exact .returned (by simp [Progress.enter, Progress.find, ← List.map_eq_flatMap])
      | some modifier =>
        -- The first branch sets the flags that the others find set.
        have hfirst : (withSource ⟨s, next :: later⟩ source).advance acts input p =
            (withSource ⟨s, next :: later⟩ source).advance acts input (p.enter s.forks).find := by
          simp [advance, withSource, child?, follow, hn, Segment.withSource, hm, Progress.enter,
            Progress.find]
        have hf : (p.outcome.forked || s.forks || s.forks) = (p.outcome.forked || s.forks) := by
          simp
        have hall := advanceAll_each (derive_drives acts input later hn hm hf) (source :: sources)
          (p.enter s.forks).find rfl rfl
        rw [List.map_cons, advanceAll_congr hfirst, ← List.map_cons]
        refine hall.map _ rfl fun r events => ?_
        simp [Progress.enter, Progress.find, Progress.add, ← List.map_eq_flatMap,
          sum_replicate_int32]

/-- At the last frame all branches come to an end. -/
theorem advanceAll_arrive (acts : Actions S C M) (input : Text) (s : Segment S C M)
    (sources : List S) (p : Progress S C M) (hv : p.outcome.value = 0)
    (hn : p.outcome.successes = 0) :
    Follows p (fun o events => ([], ⟨o, p.found || (!sources.isEmpty && s.command.isSome),
        p.journal ++ events⟩))
      (s.arrive acts input ⟨sources, p.outcome.forked, p.outcome.failures⟩)
      (advanceAll acts input (sources.map (withSource ⟨s, []⟩)) p) := by
  obtain ⟨⟨value, successes, forked, failures⟩, found, journal⟩ := p
  dsimp only at hv hn
  subst hv hn
  simp only [Segment.arrive]
  cases hc : s.command with
  | none =>
    cases sources with
    | nil => exact .returned (by simp)
    | cons source sources =>
      have hstep : ∀ (source : S) (p : Progress S C M),
          (withSource ⟨s, []⟩ source).advance acts input p = (.ok [], id p) := by
        intro source p
        simp [advance, withSource, child?, finish, Segment.withSource, hc]
      rw [advanceAll_uniform hstep (fun p => rfl) source sources]
      exact .returned (by simp)
  | some command =>
    cases sources with
    | nil => exact .returned (by simp [Segment.contexts, Task.each])
    | cons source sources =>
      have hfirst : ∀ (p : Progress S C M),
          (withSource ⟨s, []⟩ source).advance acts input p =
            (withSource ⟨s, []⟩ source).advance acts input p.find := by
        intro p
        simp [advance, withSource, child?, finish, Segment.withSource, hc, Progress.find]
      have hall := advanceAll_each (run_drives acts input forked hc) (source :: sources)
        (Progress.find ⟨⟨0, 0, forked, failures⟩, found, journal⟩) rfl rfl
      rw [List.map_cons, advanceAll_congr (hfirst _), ← List.map_cons]
      refine hall.map _ rfl fun r events => ?_
      simp [Progress.find, Progress.add, sum_replicate_int32]

theorem travel_nil {acts : Actions S C M} {input : Text} (s : Segment S C M) (a : Arrival S) :
    travel acts input ⟨s, []⟩ a = s.arrive acts input a := by
  simp [travel, Segment.journey, last]

theorem travel_cons {acts : Actions S C M} {input : Text} (s next : Segment S C M)
    (later : List (Segment S C M)) (a : Arrival S) :
    travel acts input ⟨s, next :: later⟩ a =
      match s.cross acts input next a with
      | (.error f, events) => (.error f, events)
      | (.ok a, events) =>
        ((travel acts input ⟨next, later⟩ a).1,
          events ++ (travel acts input ⟨next, later⟩ a).2) := by
  have hlast : last ⟨s, next :: later⟩ = last ⟨next, later⟩ := List.getLastD_cons
  rw [travel, hlast]
  dsimp only
  rw [Segment.journey]
  rcases s.cross acts input next a with ⟨crossed, events⟩
  cases crossed with
  | error f => rfl
  | ok a =>
    dsimp only
    rw [travel]
    dsimp only
    rcases next.journey acts input later a with ⟨outcome, more⟩
    cases outcome with
    | error f => rfl
    | ok a => simp

/-- Without sources nothing happens any more. -/
theorem travel_of_no_sources {acts : Actions S C M} {input : Text} (s : Segment S C M)
    (later : List (Segment S C M)) (forked : Bool) (failures : List SyntaxError) :
    travel acts input ⟨s, later⟩ ⟨[], forked, failures⟩ = (.ok ⟨0, 0, forked, failures⟩, []) := by
  induction later generalizing s with
  | nil =>
    rw [travel_nil]
    cases hc : s.command <;> simp [Segment.arrive, hc, Segment.contexts, Task.each, Except.map]
  | cons next later ih =>
    rw [travel_cons, Segment.cross]
    simp [ih]

/-- A chain that leads nowhere is gone through without any event. -/
theorem travel_of_not_leads (acts : Actions S C M) (input : Text) {c : Chain S C M}
    (h : c.leads = false) (source : S) :
    ∃ o, travel acts input c ⟨[source], false, []⟩ = (.ok o, []) := by
  obtain ⟨s, later⟩ := c
  cases later with
  | nil =>
    have hc : s.command = none := by simpa [leads] using h
    exact ⟨⟨0, 0, false, []⟩, by rw [travel_nil]; simp [Segment.arrive, hc]⟩
  | cons next later =>
    have hn : next.frame.matched.isEmpty = true := by simpa [leads] using h
    refine ⟨⟨0, 0, s.forks, []⟩, ?_⟩
    rw [travel_cons, Segment.cross]
    simp [hn, travel_of_no_sources]

/-- The rounds of a run, one for each frame left, are the travel through these frames. -/
theorem rounds_travel (acts : Actions S C M) (input : Text) (s : Segment S C M)
    (later : List (Segment S C M)) (sources : List S) (p : Progress S C M)
    (hv : p.outcome.value = 0) (hn : p.outcome.successes = 0) :
    Follows p (fun o events => ((), ⟨o, p.found || (!sources.isEmpty && leads ⟨s, later⟩),
        p.journal ++ events⟩))
      (travel acts input ⟨s, later⟩ ⟨sources, p.outcome.forked, p.outcome.failures⟩)
      (rounds acts input (later.length + 1) (sources.map (withSource ⟨s, later⟩)) p) := by
  induction later generalizing s sources p with
  | nil =>
    have harrive := advanceAll_arrive acts input s sources p hv hn
    rw [travel_nil, rounds]
    generalize s.arrive acts input _ = computed, advanceAll acts input _ p = ran at harrive ⊢
    cases harrive with
    | failed hjournal => exact .failed hjournal
    | returned hresult =>
      obtain ⟨rfl, rfl⟩ := Prod.mk.inj hresult
      exact .returned rfl
  | cons next later ih =>
    have hcross := advanceAll_cross acts input s next later sources p
    have hsources : ∀ a' events,
        s.cross acts input next ⟨sources, p.outcome.forked, p.outcome.failures⟩ = (.ok a', events) →
          a'.sources.isEmpty = true ∨
            (sources.isEmpty = false ∧ next.frame.matched.isEmpty = false) :=
      fun _ _ => Segment.cross_sources
    rw [travel_cons, rounds]
    generalize s.cross acts input next _ = crossed, advanceAll acts input _ p = ran
      at hcross hsources ⊢
    cases hcross with
    | failed hjournal => exact .failed hjournal
    | @returned a events _ _ hresult =>
      obtain ⟨rfl, rfl⟩ := Prod.mk.inj hresult
      have hrest := ih next a.sources
        ⟨{ p.outcome with forked := a.forked, failures := a.failures },
          p.found || (!sources.isEmpty && !next.frame.matched.isEmpty), p.journal ++ events⟩ hv hn
      dsimp only at hrest ⊢
      rw [List.length_cons]
      generalize travel acts input ⟨next, later⟩ _ = computed, rounds acts input _ _ _ = ran
        at hrest ⊢
      cases hrest with
      | failed hjournal => exact .failed (by rw [hjournal, List.append_assoc])
      | returned hresult =>
        obtain ⟨-, rfl⟩ := Prod.mk.inj hresult
        refine .returned ?_
        rcases hsources a events rfl with hnone | ⟨hsome, hnodes⟩
        · simp [leads, hnone]
        · simp [leads, hsome, hnodes]

end Chain

/-- Running a parse that left nothing over is the computation with lists of sources. -/
theorem Parse.execute_eq_branching {S C M : Type} (acts : Actions S C M) (p : Parse S C M)
    (h : p.reader.canRead 1 = false) : p.execute acts = p.branching acts := by
  have hrounds : Follows .initial (fun o events => ((), ⟨o, p.chain.leads, events⟩))
      (p.chain.travel acts p.reader.input ⟨[p.chain.first.frame.source], false, []⟩)
      (Chain.rounds acts p.reader.input p.chain.all.length [p.chain] .initial) :=
    Chain.rounds_travel acts p.reader.input p.chain.first p.chain.later
      [p.chain.first.frame.source] .initial rfl rfl
  have hnone := fun h : p.chain.leads = false =>
    Chain.travel_of_not_leads acts p.reader.input h p.chain.first.frame.source
  rw [execute, h, branching]
  simp only [Bool.false_eq_true, if_false]
  generalize p.chain.travel acts p.reader.input _ = computed,
    Chain.rounds acts p.reader.input _ _ _ = ran at hrounds hnone ⊢
  cases hrounds with
  | @failed f events p' hjournal =>
    cases hleads : p.chain.leads with
    | false =>
      obtain ⟨o, ho⟩ := hnone hleads
      simp at ho
    | true => simp [hjournal, Progress.initial, Except.map]
  | @returned o events _ _ hresult =>
    obtain ⟨-, rfl⟩ := Prod.mk.inj hresult
    cases hleads : p.chain.leads with
    | false =>
      obtain ⟨o', ho⟩ := hnone hleads
      obtain ⟨-, rfl⟩ := Prod.mk.inj ho
      simp [Progress.note]
    | true => simp [Except.map]

/-- A command or a modifier that was called, and the context that it was called in. -/
def Event.call? {S C M : Type} : Event S C M → Option ((C ⊕ M) × Context S)
  | ran command context => some (.inl command, context)
  | derived modifier context => some (.inr modifier, context)
  | notified _ _ _ => none
  | logged _ => none

/-- The commands and modifiers that a run called, in order. -/
def calls {S C M : Type} (events : List (Event S C M)) : List ((C ⊕ M) × Context S) :=
  events.filterMap Event.call?

/-- A parse with one frame that left nothing over runs the command of the frame, once. -/
theorem Parse.execute_single {S C M : Type} (acts : Actions S C M) {s : Segment S C M} {r : Reader}
    (es : List (NodeId × SyntaxError)) {command : C} (hr : r.canRead 1 = false)
    (hc : s.command = some command) :
    (Parse.execute acts ⟨⟨s, []⟩, r, es⟩).1 =
        (acts.run command (s.context r.input)).map (fun value => ⟨value, 1, false, []⟩) ∧
      calls (Parse.execute acts ⟨⟨s, []⟩, r, es⟩).2 = [(.inl command, s.context r.input)] := by
  have hleads : Chain.leads (⟨s, []⟩ : Chain S C M) = true := by simp [Chain.leads, hc]
  have hlast : Chain.last (⟨s, []⟩ : Chain S C M) = s := rfl
  have hcontexts : s.contexts r.input [s.frame.source] = [s.context r.input] := rfl
  rw [execute_eq_branching acts _ hr, branching]
  simp only [hleads, if_true, Chain.travel, Segment.journey, hlast, Segment.arrive, hc, hcontexts,
    Task.each, Task.run]
  cases hact : acts.run command (s.context r.input) with
  | ok value => simp [Except.map, calls, Event.call?]
  | error f => cases f <;> simp [Except.map, calls, Event.call?]

/-- Every run of a command ends in a result or in a failure. -/
theorem Task.length_run {S C M : Type} {acts : Actions S C M} {command : C} {forked : Bool}
    {contexts : List (Context S)} {values : List Int32} {es : List SyntaxError}
    {events : List (Event S C M)}
    (h : (Task.run acts command).each forked contexts = (.ok (values, es), events)) :
    values.length + es.length = contexts.length := by
  induction contexts generalizing values es events with
  | nil =>
    simp only [each, Prod.mk.injEq, Except.ok.injEq] at h
    obtain ⟨⟨rfl, rfl⟩, -⟩ := h
    rfl
  | cons context rest ih =>
    rw [each, run] at h
    rcases hrest : (Task.run acts command).each forked rest with ⟨outcome, more⟩
    rw [run] at hrest
    simp only [hrest] at h
    cases hact : acts.run command context with
    | ok value =>
      cases outcome with
      | error f => simp [hact, Except.map] at h
      | ok result =>
        obtain ⟨us, fs⟩ := result
        simp only [hact, Except.map, Prod.mk.injEq, Except.ok.injEq] at h
        obtain ⟨⟨rfl, rfl⟩, -⟩ := h
        have := ih hrest
        simp only [List.length_append, List.length_cons, List.length_nil]
        omega
    | error f =>
      cases f with
      | rejected e =>
        cases forked with
        | false => simp [hact, Except.map] at h
        | true =>
          cases outcome with
          | error f => simp [hact, Except.map] at h
          | ok result =>
            obtain ⟨us, fs⟩ := result
            simp only [hact, Except.map, if_true, Prod.mk.injEq, Except.ok.injEq] at h
            obtain ⟨⟨rfl, rfl⟩, -⟩ := h
            have := ih hrest
            simp only [List.length_cons]
            omega
      | _ => simp [hact, Except.map] at h

namespace Segment

variable {S C M : Type}

theorem cross_forked {acts : Actions S C M} {input : Text} {s next : Segment S C M}
    {a a' : Arrival S} {events : List (Event S C M)}
    (h : s.cross acts input next a = (.ok a', events)) :
    a'.forked = true ↔ a.forked = true ∨ (s.forks = true ∧ a.sources ≠ []) := by
  unfold cross at h
  split at h
  · rename_i hsources
    obtain ⟨ha, -⟩ := Prod.mk.inj h
    obtain rfl := Except.ok.inj ha
    have hnil : a.sources = [] := by simpa using hsources
    simp [hnil]
  · rename_i hsources
    have hne : a.sources ≠ [] := by simpa using hsources
    have hf : a'.forked = (a.forked || s.forks) := by
      dsimp only at h
      split at h
      · obtain ⟨ha, -⟩ := Prod.mk.inj h
        rw [← Except.ok.inj ha]
      · split at h
        · obtain ⟨ha, -⟩ := Prod.mk.inj h
          rw [← Except.ok.inj ha]
        · obtain ⟨ha, -⟩ := Prod.mk.inj h
          obtain ⟨result, -, rfl⟩ := map_eq_ok_iff.mp ha
          rfl
    rw [hf, Bool.or_eq_true]
    exact or_congr_right ⟨fun hs => ⟨hs, hne⟩, And.left⟩

theorem journey_cons {acts : Actions S C M} {input : Text} {s next : Segment S C M}
    {a a' : Arrival S} {events : List (Event S C M)}
    (h : s.cross acts input next a = (.ok a', events)) (later : List (Segment S C M)) :
    s.journey acts input (next :: later) a =
      ((next.journey acts input later a').1, events ++ (next.journey acts input later a').2) := by
  rw [journey, h]

/-- A fork has been passed exactly when a frame forks that some source reaches and that a next frame
follows. -/
theorem journey_forked {acts : Actions S C M} {input : Text} {s : Segment S C M}
    {later : List (Segment S C M)} {a a' : Arrival S} {events : List (Event S C M)}
    (h : s.journey acts input later a = (.ok a', events)) :
    a'.forked = true ↔ a.forked = true ∨ ∃ n k b before, n < later.length ∧
      (s :: later)[n]? = some k ∧ k.forks = true ∧
      s.journey acts input (later.take n) a = (.ok b, before) ∧ b.sources ≠ [] := by
  induction later generalizing s a events with
  | nil =>
    obtain ⟨ha, -⟩ := Prod.mk.inj h
    obtain rfl := Except.ok.inj ha
    simp
  | cons next later ih =>
    rcases hc : s.cross acts input next a with ⟨crossed, events'⟩
    cases crossed with
    | error f => simp [journey, hc] at h
    | ok a₁ =>
      rw [journey_cons hc] at h
      rw [ih (Prod.ext (Prod.mk.inj h).1 rfl), cross_forked hc]
      constructor
      · rintro ((hf | ⟨hf, hne⟩) | ⟨n, k, b, before, hlt, hk, hf, hj, hne⟩)
        · exact .inl hf
        · exact .inr ⟨0, s, a, [], by simp, rfl, hf, rfl, hne⟩
        · refine .inr ⟨n + 1, k, b, events' ++ before, by simpa using hlt, hk, hf, ?_, hne⟩
          rw [List.take_succ_cons, journey_cons hc, hj]
      · rintro (hf | ⟨n, k, b, before, hlt, hk, hf, hj, hne⟩)
        · exact .inl (.inl hf)
        · cases n with
          | zero =>
            obtain rfl : s = k := by simpa using hk
            obtain ⟨ha, -⟩ := Prod.mk.inj hj
            obtain rfl := Except.ok.inj ha
            exact .inl (.inr ⟨hf, hne⟩)
          | succ n =>
            rw [List.take_succ_cons, journey_cons hc] at hj
            exact .inr ⟨n, k, b, _, by simpa using hlt, hk, hf,
              Prod.ext (Prod.mk.inj hj).1 rfl, hne⟩

end Segment

/-- Running a parse that left nothing over is the computation with lists of sources. If it returns
and there is a command, then that was run for every source that arrives: the results and the
failures together are as many, a fork makes the number of the results the value, without one the value
is the sum of the results, and only frames that are followed by another one count as forks. Number
and sum are those of the integers where they fit in 32 bits. -/
theorem Parse.execute_refines {S C M : Type} (acts : Actions S C M) (p : Parse S C M)
    (h : p.reader.canRead 1 = false) :
    p.execute acts = p.branching acts ∧
      ∀ o events command, p.execute acts = (.ok o, events) → p.chain.last.command = some command →
        ∃ a before values es after,
          p.arrival acts = (.ok a, before) ∧
          (Task.run acts command).each a.forked
            (p.chain.last.contexts p.reader.input a.sources) = (.ok (values, es), after) ∧
          events = before ++ after ∧ o.forked = a.forked ∧
          values.length + es.length = a.sources.length ∧ o.failures = a.failures ++ es ∧
          o.successes = .ofNat values.length ∧
          ((values.length : Int) ≤ Int32.maxValue.toInt → o.successes.toInt = values.length) ∧
          o.value = (if o.forked then o.successes else values.sum) ∧
          (o.forked = false → SumsFit values → o.value.toInt = (values.map Int32.toInt).sum) ∧
          (o.forked = true ↔ ∃ n k b before, n < p.chain.later.length ∧
            p.chain.all[n]? = some k ∧ k.forks = true ∧
            p.chain.first.journey acts p.reader.input (p.chain.later.take n)
              ⟨[p.chain.first.frame.source], false, []⟩ = (.ok b, before) ∧ b.sources ≠ []) := by
  refine ⟨p.execute_eq_branching acts h, fun o events command hrun hcommand => ?_⟩
  rw [p.execute_eq_branching acts h, branching] at hrun
  dsimp only at hrun
  split at hrun
  · rw [Chain.travel] at hrun
    rcases harrive : p.arrival acts with ⟨journey, before⟩
    have hj := harrive
    unfold arrival at hj
    rw [hj] at hrun
    cases journey with
    | error f => simp [Except.map] at hrun
    | ok a =>
      simp only [Segment.arrive, hcommand] at hrun
      rcases he : (Task.run acts command).each a.forked
        (p.chain.last.contexts p.reader.input a.sources) with ⟨result, after⟩
      rw [he] at hrun
      cases result with
      | error f => simp [Except.map] at hrun
      | ok result =>
        obtain ⟨values, es⟩ := result
        have hlength := Task.length_run he
        have hforked := Segment.journey_forked hj
        simp only [Except.map, Prod.mk.injEq, Except.ok.injEq] at hrun
        obtain ⟨rfl, rfl⟩ := hrun
        have hcount : values.length + es.length = a.sources.length := by
          simpa [Segment.contexts] using hlength
        have hnumber : (values.length : Int) ≤ Int32.maxValue.toInt →
            (Int32.ofNat values.length).toInt = values.length := by
          intro hmax
          rw [show Int32.maxValue.toInt = 2147483647 from rfl] at hmax
          exact Int32.toInt_ofNat_of_lt (by omega)
        refine ⟨a, before, values, es, after, rfl, he, rfl, ?_⟩
        simp only [Bool.false_eq_true, false_or] at hforked
        cases hf : a.forked with
        | false =>
          exact ⟨rfl, hcount, rfl, rfl, hnumber, rfl, fun _ hfits => toInt_sum hfits,
            by rwa [hf] at hforked⟩
        | true =>
          exact ⟨rfl, hcount, rfl, rfl, hnumber, rfl, fun hforks => by simp at hforks,
            by rwa [hf] at hforked⟩
  · simp at hrun

/-- Behind `each` the root is reached again, by two sources for every one; `hit` is a command, and
`both` is one that also forks, with nothing behind it. -/
def swarm : Grammar Int Text Unit :=
  let root : Tree Int Text Unit := .node [0] (.ofKind .root)
    [.node [1] ⟨.literal (text "each"), none, none, none, some [0], some (), true⟩ [],
      .node [2] ⟨.literal (text "hit"), some (text "hit"), none, none, none, none, false⟩ [],
      .node [3] ⟨.literal (text "both"), some (text "both"), none, none, some [0], some (), true⟩
        []]
  ⟨root, fun id => if id = [0] then root else .bare id⟩

/-- Even sources are refused. -/
def swarmActions : Actions Int Text Unit where
  run _ context :=
    if context.source % 2 = 0 then .error (.custom (text "even")) else .ok (.ofInt context.source)
  derive _ context := .ok [10 * context.source + 1, 10 * context.source + 2]

/-- Two forks in a row, where half of the branches fail. -/
theorem execute_refines_swarm :
    ∃ p, swarm.parse 0 (.ofText (text "each each hit")) = .ok p ∧ p.reader.canRead 1 = false ∧
      p.chain.last.command = some (text "hit") ∧
      p.execute swarmActions = p.branching swarmActions ∧
      ∃ (o : Outcome) (events : List (Event Int Text Unit)) (a : Arrival Int)
          (values : List Int32) (es : List SyntaxError) (after : List (Event Int Text Unit)),
        p.execute swarmActions = (.ok o, events) ∧
        (Task.run swarmActions (text "hit")).each a.forked
          (p.chain.last.contexts p.reader.input a.sources) = (.ok (values, es), after) ∧
        o.successes = .ofNat values.length ∧ values.length + es.length = a.sources.length ∧
        o.successes = 2 ∧ o.value = 2 ∧ o.forked = true := by
  have h : (swarm.parse 0 (.ofText (text "each each hit"))).map (fun p => (p.reader.canRead 1,
      p.chain.last.command, (p.execute swarmActions).1.map fun o => (o.successes, o.forked))) =
      .ok (false, some (text "hit"), .ok (2, true)) := by
    cbv
  obtain ⟨p, hp, heq⟩ := map_eq_ok_iff.mp h
  simp only [Prod.mk.injEq] at heq
  obtain ⟨hdone, hcommand, hrun⟩ := heq
  obtain ⟨heq, hfacts⟩ := p.execute_refines swarmActions hdone
  obtain ⟨o, ho, hcounts⟩ := map_eq_ok_iff.mp hrun
  obtain ⟨hsuccesses, hforked⟩ := Prod.mk.inj hcounts
  obtain ⟨a, before, values, es, after, -, heach, -, -, hsources, -, hnumber, -, hvalue, -⟩ :=
    hfacts o _ _ (Prod.ext ho rfl) hcommand
  rw [hforked, hsuccesses] at hvalue
  exact ⟨p, hp, hdone, hcommand, heq, o, _, a, values, es, after, Prod.ext ho rfl, heach, hnumber,
    hsources, hsuccesses, hvalue, hforked⟩

/-- A frame that forks, but that nothing follows, does not keep its failure from ending the run. -/
theorem execute_last_fork :
    ∃ p, swarm.parse 0 (.ofText (text "both")) = .ok p ∧ p.reader.canRead 1 = false ∧
      p.chain.all.length = 1 ∧ p.chain.first.forks = true ∧
      p.chain.first.command = some (text "both") ∧
      (p.execute swarmActions).1 = .error (.custom (text "even")) := by
  have h : (swarm.parse 0 (.ofText (text "both"))).map (fun p => (p.reader.canRead 1,
      p.chain.all.length, p.chain.first.forks, p.chain.first.command, (p.execute swarmActions).1)) =
      .ok (false, 1, true, some (text "both"), .error (.custom (text "even"))) := by
    cbv
  obtain ⟨p, hp, heq⟩ := map_eq_ok_iff.mp h
  simp only [Prod.mk.injEq] at heq
  exact ⟨p, hp, heq⟩

end CommandTree
