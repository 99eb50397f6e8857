import CommandTree.Proofs.Branching
import CommandTree.Proofs.Translation
import CommandTree.Proofs.Visibility
import CommandTree.Proofs.Words
import Mathlib

/-!
A word that leads back to the root can be put before any line. Runs are compared as far as positions
do not count: by their results, and by the commands and modifiers that they called, with the sources
and the values that these found. Main statement: what a line comes to, it comes to behind any number of
such words.
-/

namespace CommandTree

/-- The fault without the place where it arose. -/
def Fault.unplaced : Fault → Fault
  | rejected e => rejected ⟨e.cause, none⟩
  | f => f

theorem Fault.unplaced_eq_rejected {f : Fault} {e : SyntaxError}
    (h : f.unplaced = (rejected e).unplaced) : ∃ e', f = rejected e' ∧ e'.cause = e.cause := by
  cases f with
  | rejected e' => exact ⟨e', rfl, (SyntaxError.mk.inj (rejected.inj h)).1⟩
  | _ => simp [unplaced] at h

namespace Frame

variable {S : Type}

/-- The values of a frame by name. -/
def values (f : Frame S) : List (Text × Value) := f.bindings.map fun b => (b.1, b.2.value)

/-- Two frames have the same source and the same values. -/
structure Agrees (f f' : Frame S) : Prop where
  source : f'.source = f.source
  values : f'.values = f.values

theorem agrees_shift (k : Int) (f : Frame S) : f.Agrees (f.shift k) where
  source := rfl
  values := by simp [Frame.values, shift, Bindings.shift, Binding.shift]

theorem find?_value (f : Frame S) (name : Text) :
    (f.bindings.find? name).map Binding.value = f.values.lookup name := by
  unfold values
  induction f.bindings with
  | nil => rfl
  | cons b bs ih =>
    by_cases h : name = b.1
    · simp [Bindings.find?, h]
    · have hb : (name == b.1) = false := by simpa using h
      simpa [Bindings.find?, List.lookup, h, hb] using ih

/-- What is asked of a frame depends on its values only. -/
theorem Agrees.ask_eq {f f' : Frame S} (h : f.Agrees f') {α : Type} (name : Text) (kind : ValueKind)
    (as? : Value → Option α) : f'.ask name kind as? = f.ask name kind as? := by
  have hvalue : (f'.bindings.find? name).map Binding.value =
      (f.bindings.find? name).map Binding.value := by
    rw [find?_value, find?_value, h.values]
  unfold ask
  generalize f'.bindings.find? name = x, f.bindings.find? name = y at hvalue ⊢
  cases x with
  | none =>
    cases y with
    | none => rfl
    | some b => cases hvalue
  | some b' =>
    cases y with
    | none => cases hvalue
    | some b =>
      have hb : b'.value = b.value := Option.some.inj hvalue
      simp only [hb]

end Frame

/-- Commands and modifiers look at sources and values only. Faults may tell where they arose. -/
structure Actions.Unplaced {S C M : Type} (acts : Actions S C M) : Prop where
  run : ∀ (command : C) (x y : Context S), x.toFrame.Agrees y.toFrame →
    (acts.run command y).mapError Fault.unplaced = (acts.run command x).mapError Fault.unplaced
  derive : ∀ (modifier : M) (x y : Context S), x.toFrame.Agrees y.toFrame →
    (acts.derive modifier y).mapError Fault.unplaced =
      (acts.derive modifier x).mapError Fault.unplaced

theorem mapError_unplaced_cases {α : Type} {x y : Except Fault α}
    (h : y.mapError Fault.unplaced = x.mapError Fault.unplaced) :
    (∃ a, x = .ok a ∧ y = .ok a) ∨
      ∃ f f', x = .error f ∧ y = .error f' ∧ f'.unplaced = f.unplaced := by
  cases x with
  | ok a =>
    cases y with
    | ok b => exact .inl ⟨a, rfl, congrArg _ (Except.ok.inj h)⟩
    | error f => cases h
  | error f =>
    cases y with
    | ok b => cases h
    | error f' => exact .inr ⟨f, f', rfl, rfl, Except.error.inj h⟩

section

variable {S C M T : Type}

/-- The commands and modifiers that a run called, with the sources and values that these found. -/
def invoked (events : List (Event S C M)) : List ((C ⊕ M) × S × List (Text × Value)) :=
  (calls events).map fun c => (c.1, c.2.source, c.2.toFrame.values)

theorem invoked_append (es fs : List (Event S C M)) :
    invoked (es ++ fs) = invoked es ++ invoked fs := by
  simp [invoked, calls]

/-- Two computations end in the same way, as far as positions do not count. -/
inductive Alike {α β : Type} (view : α → β) :
    Except Fault α × List (Event S C M) → Except Fault α × List (Event S C M) → Prop
  | failed {f f' : Fault} {es es' : List (Event S C M)} (fault : f'.unplaced = f.unplaced)
      (calls : invoked es' = invoked es) : Alike view (.error f, es) (.error f', es')
  | returned {a a' : α} {es es' : List (Event S C M)} (result : view a' = view a)
      (calls : invoked es' = invoked es) : Alike view (.ok a, es) (.ok a', es')

namespace Alike

variable {α β α' β' : Type} {view : α → β} {view' : α' → β'}
  {x y : Except Fault α × List (Event S C M)}

theorem map (h : Alike view x y) {g g' : α → α'}
    (hg : ∀ a a', view a' = view a → view' (g' a') = view' (g a)) :
    Alike view' (x.1.map g, x.2) (y.1.map g', y.2) := by
  cases h with
  | failed fault calls => exact .failed fault calls
  | returned result calls => exact .returned (hg _ _ result) calls

theorem prepend (h : Alike view x y) {es es' : List (Event S C M)}
    (hes : invoked es' = invoked es) : Alike view (x.1, es ++ x.2) (y.1, es' ++ y.2) := by
  cases h with
  | failed fault calls => exact .failed fault (by rw [invoked_append, invoked_append, hes, calls])
  | returned result calls =>
    exact .returned result (by rw [invoked_append, invoked_append, hes, calls])

end Alike

namespace Task

variable {task : Task S C M T} {forked : Bool} {context : Context S} {rest : List (Context S)}

theorem each_ok {ts : List T} (h : task.act context = .ok ts) :
    task.each forked (context :: rest) =
      ((task.each forked rest).1.map fun r => (ts ++ r.1, r.2),
        task.call context :: task.report context ts ++ (task.each forked rest).2) := by
  rw [each, h]

theorem each_rejected {e : SyntaxError} (h : task.act context = .error (.rejected e)) :
    task.each forked (context :: rest) =
      if forked then
        ((task.each forked rest).1.map fun r => (r.1, e :: r.2),
          [task.call context, .notified context false 0, .logged (failure task.headline e)] ++
            (task.each forked rest).2)
      else (.error (.rejected e), [task.call context, .notified context false 0]) := by
  rw [each, h]
  rfl

theorem each_fault {f : Fault} (h : task.act context = .error f) (hf : ∀ e, f ≠ .rejected e) :
    task.each forked (context :: rest) = (.error f, [task.call context]) := by
  rw [each, h]
  cases f with
  | rejected e => exact absurd rfl (hf e)
  | _ => rfl

/-- What a task yields, with the causes of the failures. -/
def outline (r : List T × List SyntaxError) : List T × List Cause := (r.1, r.2.map SyntaxError.cause)

/-- A task that is called under one name and reports no calls of its own, and whose action looks at
sources and values only. -/
structure Unplaced (task : Task S C M T) (called : C ⊕ M) : Prop where
  act : ∀ x y : Context S, x.toFrame.Agrees y.toFrame →
    (task.act y).mapError Fault.unplaced = (task.act x).mapError Fault.unplaced
  call : ∀ x : Context S, (task.call x).call? = some (called, x)
  report : ∀ (x : Context S) (ts : List T), calls (task.report x ts) = []

theorem Unplaced.invoked_call {called : C ⊕ M} (h : task.Unplaced called) (x : Context S)
    {es : List (Event S C M)} (hes : calls es = []) :
    invoked (task.call x :: es) = [(called, x.source, x.toFrame.values)] := by
  unfold invoked calls at *
  simp [h.call, hes]

/-- A task comes to the same for contexts with the same sources and values. -/
theorem Unplaced.each {called : C ⊕ M} (h : task.Unplaced called) (forked : Bool)
    {xs ys : List (Context S)}
    (hxs : List.Forall₂ (fun x y : Context S => x.toFrame.Agrees y.toFrame) xs ys) :
    Alike outline (task.each forked xs) (task.each forked ys) := by
  induction hxs with
  | nil => exact .returned rfl rfl
  | @cons x y xs ys hxy _ ih =>
    have hcall : ∀ (es es' : List (Event S C M)), calls es = [] → calls es' = [] →
        invoked (task.call y :: es') = invoked (task.call x :: es) := by
      intro es es' hes hes'
      rw [h.invoked_call y hes', h.invoked_call x hes, hxy.source, hxy.values]
    rcases mapError_unplaced_cases (h.act x y hxy) with ⟨ts, hx, hy⟩ | ⟨f, f', hx, hy, hf⟩
    · rw [each_ok hx, each_ok hy]
      refine (ih.map fun a a' ha => ?_).prepend (hcall _ _ (h.report x ts) (h.report y ts))
      unfold outline at ha ⊢
      rw [(Prod.mk.inj ha).1, (Prod.mk.inj ha).2]
    · cases f with
      | rejected e =>
        obtain ⟨e', rfl, hcause⟩ := Fault.unplaced_eq_rejected hf
        rw [each_rejected hx, each_rejected hy]
        cases forked with
        | false => exact .failed hf (hcall _ _ rfl rfl)
        | true =>
          refine (ih.map fun a a' ha => ?_).prepend (hcall _ _ rfl rfl)
          unfold outline at ha ⊢
          rw [List.map_cons, List.map_cons, (Prod.mk.inj ha).1, (Prod.mk.inj ha).2, hcause]
      | _ =>
        have hne : ∀ e, f' ≠ .rejected e := by
          rintro e rfl
          simp [Fault.unplaced] at hf
        rw [each_fault hx (by simp), each_fault hy hne]
        exact .failed hf (hcall _ _ rfl rfl)

theorem derive_unplaced {acts : Actions S C M} (h : acts.Unplaced) (modifier : M) :
    (derive acts modifier).Unplaced (.inr modifier) where
  act := h.derive modifier
  call _ := rfl
  report _ _ := rfl

theorem run_unplaced {acts : Actions S C M} (h : acts.Unplaced) (command : C) :
    (run acts command).Unplaced (.inl command) where
  act x y hxy := by
    have hrun := h.run command x y hxy
    simp only [run]
    rcases mapError_unplaced_cases hrun with ⟨v, hx, hy⟩ | ⟨f, f', hx, hy, hf⟩
    · rw [hx, hy]
    · rw [hx, hy]
      exact congrArg Except.error hf
  call _ := rfl
  report x ts := by simp [run, calls, Event.call?]

end Task

/-- What arrives at a frame, with the causes of the failures. -/
def Arrival.outline (a : Arrival S) : List S × Bool × List Cause :=
  (a.sources, a.forked, a.failures.map SyntaxError.cause)

theorem Arrival.outline_eq_iff {a a' : Arrival S} : a'.outline = a.outline ↔
    a'.sources = a.sources ∧ a'.forked = a.forked ∧
      a'.failures.map SyntaxError.cause = a.failures.map SyntaxError.cause := by
  simp only [outline, Prod.mk.injEq]

/-- What a run comes to, with the causes of the failures. -/
def Outcome.outline (o : Outcome) : Int32 × Int32 × Bool × List Cause :=
  (o.value, o.successes, o.forked, o.failures.map SyntaxError.cause)

namespace Segment

variable {s s' next next' : Segment S C M}

/-- Two segments differ in nothing but positions and nodes, and both have nodes or none. -/
structure Agrees (s s' : Segment S C M) : Prop where
  frame : s.frame.Agrees s'.frame
  nodes : s'.frame.matched.isEmpty = s.frame.matched.isEmpty
  command : s'.command = s.command
  modifier : s'.modifier = s.modifier
  forks : s'.forks = s.forks

theorem agrees_shift (k : Int) (s : Segment S C M) : s.Agrees (s.shift k) where
  frame := s.frame.agrees_shift k
  nodes := by simp [shift, Frame.shift]
  command := rfl
  modifier := rfl
  forks := rfl

theorem Agrees.contexts (h : s.Agrees s') (input input' : Text) (sources : List S) :
    List.Forall₂ (fun x y : Context S => x.toFrame.Agrees y.toFrame)
      (s.contexts input sources) (s'.contexts input' sources) := by
  unfold Segment.contexts
  rw [List.forall₂_map_left_iff, List.forall₂_map_right_iff, List.forall₂_same]
  exact fun source _ => ⟨rfl, h.frame.values⟩

/-- Going from a frame to the next one. -/
theorem cross_alike {acts : Actions S C M} (hacts : acts.Unplaced) (h : s.Agrees s')
    (hnext : next.Agrees next') {a a' : Arrival S} (ha : a'.outline = a.outline)
    (input input' : Text) :
    Alike Arrival.outline (s.cross acts input next a) (s'.cross acts input' next' a') := by
  obtain ⟨hsources, hforked, hfailures⟩ := Arrival.outline_eq_iff.mp ha
  unfold cross
  rw [hsources, hforked, h.forks, hnext.nodes, h.modifier]
  by_cases hnone : a.sources.isEmpty = true
  · simp only [hnone, if_true]
    exact .returned ha rfl
  · by_cases hempty : next.frame.matched.isEmpty = true
    · simp only [hnone, hempty, if_true, Bool.false_eq_true, if_false]
      exact .returned (by simp [Arrival.outline, hfailures]) rfl
    · simp only [hnone, hempty, Bool.false_eq_true, if_false]
      cases s.modifier with
      | none => exact .returned (by simp [Arrival.outline, hfailures]) rfl
      | some modifier =>
        refine ((Task.derive_unplaced hacts modifier).each _
          (h.contexts input input' a.sources)).map fun r r' hr => ?_
        obtain ⟨hyield, hcauses⟩ := Prod.mk.inj hr
        simp [Arrival.outline, hyield, hcauses, hfailures]

/-- Running the command of the last frame. -/
theorem arrive_alike {acts : Actions S C M} (hacts : acts.Unplaced) (h : s.Agrees s')
    {a a' : Arrival S} (ha : a'.outline = a.outline) (input input' : Text) :
    Alike Outcome.outline (s.arrive acts input a) (s'.arrive acts input' a') := by
  obtain ⟨hsources, hforked, hfailures⟩ := Arrival.outline_eq_iff.mp ha
  unfold arrive
  rw [hsources, hforked, h.command]
  cases s.command with
  | none => exact .returned (by simp [Outcome.outline, hfailures]) rfl
  | some command =>
    refine ((Task.run_unplaced hacts command).each a.forked
      (h.contexts input input' a.sources)).map fun r r' hr => ?_
    obtain ⟨hyield, hcauses⟩ := Prod.mk.inj hr
    simp [Outcome.outline, hyield, hcauses, hfailures]

end Segment

namespace Chain

/-- Going through all frames. -/
theorem travel_alike {acts : Actions S C M} (hacts : acts.Unplaced) {s s' : Segment S C M}
    {later later' : List (Segment S C M)} (h : s.Agrees s')
    (hlater : List.Forall₂ Segment.Agrees later later') {a a' : Arrival S}
    (ha : a'.outline = a.outline) (input input' : Text) :
    Alike Outcome.outline (travel acts input ⟨s, later⟩ a) (travel acts input' ⟨s', later'⟩ a') := by
  induction hlater generalizing s s' a a' with
  | nil =>
    rw [travel_nil, travel_nil]
    exact Segment.arrive_alike hacts h ha input input'
  | @cons next next' later later' hnext _ ih =>
    have hcross := Segment.cross_alike hacts h hnext ha input input'
    rw [travel_cons, travel_cons]
    generalize s.cross acts input next a = x, s'.cross acts input' next' a' = y at hcross ⊢
    cases hcross with
    | failed fault calls => exact .failed fault calls
    | returned result calls => exact (ih hnext result).prepend calls

theorem leads_of_agrees {c c' : Chain S C M} (h : c.first.Agrees c'.first)
    (hlater : List.Forall₂ Segment.Agrees c.later c'.later) : c'.leads = c.leads := by
  unfold leads
  generalize c.later = later, c'.later = later' at hlater ⊢
  cases hlater with
  | nil => exact congrArg Option.isSome h.command
  | cons hnext _ => exact congrArg not hnext.nodes

end Chain

/-- With forks the value is the number of successes, here and there. -/
theorem Outcome.outline_total {o o' : Outcome} (h : o'.outline = o.outline) :
    (if o'.forked then { o' with value := o'.successes } else o').outline =
      (if o.forked then { o with value := o.successes } else o).outline := by
  obtain ⟨value, successes, forked, failures⟩ := o
  obtain ⟨value', successes', forked', failures'⟩ := o'
  simp only [outline, Prod.mk.injEq] at h
  obtain ⟨rfl, rfl, rfl, hcauses⟩ := h
  cases forked' <;> simp [outline, hcauses]

namespace Parse

/-- Running two parses that differ in nothing but positions. -/
theorem execute_alike {acts : Actions S C M} (hacts : acts.Unplaced) {p p' : Parse S C M}
    (hread : p.reader.canRead 1 = false) (hread' : p'.reader.canRead 1 = false)
    (h : p.chain.first.Agrees p'.chain.first)
    (hlater : List.Forall₂ Segment.Agrees p.chain.later p'.chain.later) :
    Alike Outcome.outline (p.execute acts) (p'.execute acts) := by
  rw [execute_eq_branching acts p hread, execute_eq_branching acts p' hread', branching, branching,
    Chain.leads_of_agrees h hlater, h.frame.source]
  by_cases hleads : p.chain.leads = true
  · simp only [hleads, if_true]
    exact (Chain.travel_alike hacts h hlater rfl _ _).map fun o o' ho => Outcome.outline_total ho
  · simp only [hleads, Bool.false_eq_true, if_false]
    exact .failed rfl rfl

/-- A run that returns left nothing over, and its first frame goes on. -/
theorem leads_of_execute {acts : Actions S C M} {p : Parse S C M} {o : Outcome}
    {events : List (Event S C M)} (h : p.execute acts = (.ok o, events)) :
    p.reader.canRead 1 = false ∧ p.chain.leads = true := by
  by_cases hread : p.reader.canRead 1 = true
  · rw [execute, if_pos hread] at h
    cases h
  · rw [Bool.not_eq_true] at hread
    refine ⟨hread, ?_⟩
    by_contra hleads
    rw [execute_eq_branching acts p hread, branching] at h
    simp only [hleads] at h
    cases h

/-- A frame without modifier and fork in front of a parse does not change its run. -/
theorem execute_under (acts : Actions S C M) {p : Parse S C M} {s : Segment S C M}
    (hread : p.reader.canRead 1 = false) (hleads : p.chain.leads = true)
    (hnodes : p.chain.first.frame.matched.isEmpty = false) (hmodifier : s.modifier = none)
    (hforks : s.forks = false) (hsource : p.chain.first.frame.source = s.frame.source) :
    (p.under s).execute acts = p.execute acts := by
  have hchain : (p.under s).chain = ⟨s, p.chain.first :: p.chain.later⟩ := rfl
  have hcross : s.cross acts p.reader.input p.chain.first ⟨[s.frame.source], false, []⟩ =
      (.ok ⟨[s.frame.source], false, []⟩, []) := by
    simp [Segment.cross, hnodes, hmodifier, hforks]
  have hgoes : (⟨s, p.chain.first :: p.chain.later⟩ : Chain S C M).leads = true := by
    simp [Chain.leads, hnodes]
  rw [execute_eq_branching acts p hread, execute_eq_branching acts (p.under s) hread, branching,
    branching, hchain, hgoes, hleads, hsource]
  simp only [if_true]
  rw [show (p.under s).reader = p.reader from rfl, Chain.travel_cons, hcross]
  rfl

end Parse

/-! The word in front of a line -/

/-- A type that depends on what lies ahead only is not moved by a text before. -/
theorem ArgumentType.Local.moves {type : ArgumentType} (h : type.Local) (before : Text) :
    type.Moves (fun _ _ => True) before := by
  intro r hr
  have hr' := (Reader.inside_behind_iff before hr.1).mpr hr
  have hrest := Reader.rest_of_behind before hr.1
  refine ⟨fun v n hread => h r _ hr hr' hrest.symm v n hread, fun f n hread => ?_⟩
  rcases hread' : type.parse (r.behind before) with ⟨f' | v, n'⟩
  · exact ⟨f', n', rfl, trivial⟩
  · have hback := h _ r hr' hr hrest v n' hread'
    rw [hread] at hback
    cases hback

namespace Grammar

/-- Argument types depend on what lies ahead only, and conditions on sources and values only. -/
structure Unplaced (g : Grammar S C M) : Prop where
  types : ∀ t, g.HasNode t → ∀ name type provider,
    t.traits.kind = .argument name type provider → type.Local
  conditions : ∀ t, g.HasNode t → ∀ q, t.traits.contextRequirement = some q →
    ∀ (f f' : Frame S) (r r' : Reader), f.Agrees f' → q f' r' = q f r

theorem Unplaced.movable {g : Grammar S C M} (h : g.Unplaced) (before : Text) :
    g.Movable (fun _ _ => True) before where
  own _ _ := trivial
  types t ht name type provider hk := (h.types t ht.hasNode name type provider hk).moves before
  conditions t ht q hq f r :=
    h.conditions t ht.hasNode q hq f _ r _ (f.agrees_shift before.length)

/-- A word below the root that a source may use, and that only leads back to the root. -/
structure LeadsBack (g : Grammar S C M) (source : S) (c : Tree S C M) : Prop where
  kind : c.traits.kind = .literal c.name
  child : g.root.child? c.name = some c
  spaceless : separator ∉ c.name
  admitted : c.admits source = .ok true
  unconditional : c.traits.contextRequirement = none
  unmodified : c.traits.modifier = none
  single : c.traits.forks = false
  leads : c.redirect = some g.root.id
  home : g.resolve g.root.id = g.root

/-- Parses a line for a source and runs the parse. -/
def run (g : Grammar S C M) (acts : Actions S C M) (source : S) (line : Text) :
    Except Fault Outcome × List (Event S C M) :=
  match g.parse source (.ofText line) with
  | .ok p => p.execute acts
  | .error f => (.error f, [])

/-- A line behind a word that leads back is parsed below the root, behind the word. -/
theorem parse_behind_word {g : Grammar S C M} {source : S} {c : Tree S C M}
    (hc : g.LeadsBack source c) (line : Text) :
    g.parse source (.ofText (c.name ++ [separator] ++ line)) =
      (g.parseAt g.root ((Reader.ofText line).behind (c.name ++ [separator]))
        (.start source (some g.root.id) (c.name ++ [separator]).length)).map
          (·.under (c.enter (.ofText (c.name ++ [separator] ++ line))
            (.start source (some g.root.id) 0))) := by
  let r : Reader := .ofText (c.name ++ [separator] ++ line)
  have hr : r.rest = c.name ++ separator :: line := by simp [r, Reader.ofText, Reader.rest]
  have h0 : 0 ≤ r.cursor := Int.le_refl 0
  have hl : r.cursor ≤ r.input.length := Int.natCast_nonneg _
  have hrelevant : g.root.relevant r = c :: g.root.arguments := by
    have hliteral : c.isLiteral = true := by rw [Tree.isLiteral, hc.kind]; rfl
    rw [Tree.relevant, hr, Text.token_append hc.spaceless (.inr ⟨line, rfl⟩), hc.child]
    simp [Option.filter, hliteral]
  have husable : c.Usable (Frame.start source (some g.root.id) 0) r :=
    ⟨hc.admitted, fun q hq => absurd (hc.unconditional.symm.trans hq) (by simp)⟩
  have hattempt := Tree.attempt_literal hc.kind h0 hl hr (.inr ⟨line, rfl⟩)
    (.start source (some g.root.id) 0)
  have hread : (r.advance c.name.length).canRead 1 = true := by
    have hlen := Reader.length_rest h0 hl
    rw [hr, List.length_append, List.length_cons] at hlen
    rw [Reader.canRead, decide_eq_true_eq, Reader.advance_cursor, Reader.advance_input]
    omega
  have hbehind : (r.advance c.name.length).advance 1 =
      (Reader.ofText line).behind (c.name ++ [separator]) := by
    simp [r, Reader.ofText, Reader.behind, Reader.advance]
  have hcursor : ((Reader.ofText line).behind (c.name ++ [separator])).cursor =
      (c.name ++ [separator]).length := Int.zero_add _
  have htrial : g.trial c r (.start source (some g.root.id) 0) =
      (g.parseAt g.root ((Reader.ofText line).behind (c.name ++ [separator]))
        (.start source (some g.root.id) (c.name ++ [separator]).length)).map
          fun p => .decided (p.under (c.enter r (.start source (some g.root.id) 0))) := by
    rw [trial, show (Segment.start source (some g.root.id) 0 : Segment S C M).frame =
      Frame.start source (some g.root.id) 0 from rfl, Tree.eligible_iff.mpr husable]
    simp only [hattempt, onward, hc.leads, hread, if_true, hc.home, hbehind, hcursor]
    rfl
  show g.parseAt g.root r (.start source (some g.root.id) 0) = _
  rw [parseAt_eq, hrelevant, explore_cons, htrial]
  generalize g.parseAt g.root _ _ = x
  cases x <;> rfl

theorem ne_nil_of_relevant {t c : Tree S C M} {r : Reader} {s s' : Segment S C M} {n : Nat}
    (hc : c ∈ t.relevant r) (h : c.attempt r s = .ok (s', n)) : s'.frame.matched ≠ [] := by
  obtain ⟨m, hm⟩ := Tree.matched_of_relevant hc h
  rw [hm]
  exact List.append_ne_nil_of_right_ne_nil _ (List.cons_ne_nil m [])

/-- Where a parse comes to rest, it has matched a node, unless it is where it began. -/
theorem Reaches.first_matched {g : Grammar S C M} {t : Tree S C M} {r : Reader}
    {s : Segment S C M} {p : Parse S C M} (h : g.Reaches t r s p) :
    p.chain = ⟨s, []⟩ ∨ p.chain.first.frame.matched ≠ [] := by
  induction h with
  | stop => exact .inl rfl
  | rest relevant _ matched _ => exact .inr (ne_nil_of_relevant relevant matched)
  | redirect relevant _ matched _ _ _ _ => exact .inr (ne_nil_of_relevant relevant matched)
  | child relevant _ matched _ _ _ ih =>
    rcases ih with heq | hne
    · rw [heq]
      exact .inr (ne_nil_of_relevant relevant matched)
    · exact .inr hne

theorem matched_of_leads {g : Grammar S C M} {source : S} {r : Reader} {p : Parse S C M}
    (h : g.parse source r = .ok p) (hleads : p.chain.leads = true) :
    p.chain.first.frame.matched.isEmpty = false := by
  rcases (reaches_of_parseAt h).first_matched with heq | hne
  · rw [heq] at hleads
    cases hleads
  · simpa using hne

/-- One word that leads back: a line that returns comes to the same behind it. -/
theorem run_behind_word {g : Grammar S C M} {acts : Actions S C M} {source : S} {c : Tree S C M}
    (hg : g.Unplaced) (hacts : acts.Unplaced) (hc : g.LeadsBack source c) {line : Text}
    {o : Outcome} {events : List (Event S C M)} (h : g.run acts source line = (.ok o, events)) :
    Alike Outcome.outline (g.run acts source line)
      (g.run acts source (c.name ++ [separator] ++ line)) := by
  have hparse := parse_behind_word hc line
  have hmoved := parseAt_behind (hg.movable (c.name ++ [separator])) .root
    (show (Reader.ofText line).Inside from ⟨Int.le_refl 0, Int.natCast_nonneg _⟩)
    (.start source (some g.root.id) 0)
  rw [Segment.shift_start, Int.zero_add] at hmoved
  unfold run at h ⊢
  rw [hparse]
  generalize hx : g.parse source (.ofText line) = x at h ⊢
  rw [show g.parseAt g.root (.ofText line) (.start source (some g.root.id) 0) = x from hx] at hmoved
  generalize g.parseAt g.root ((Reader.ofText line).behind _) _ = y at hmoved ⊢
  cases hmoved with
  | error f => cases h
  | @ok p p' moved =>
    obtain ⟨hread, hleads⟩ := Parse.leads_of_execute h
    have hread' : p'.reader.canRead 1 = false := by
      rw [moved.reader, Reader.canRead_behind]
      exact hread
    have hfirst : p.chain.first.Agrees p'.chain.first := by
      rw [moved.chain]
      exact Segment.agrees_shift _ _
    have hlater : List.Forall₂ Segment.Agrees p.chain.later p'.chain.later := by
      rw [moved.chain]
      exact List.forall₂_map_right_iff.mpr
        (List.forall₂_same.mpr fun s _ => Segment.agrees_shift _ s)
    have hunder := Parse.execute_under acts
      (s := c.enter (.ofText (c.name ++ [separator] ++ line)) (.start source (some g.root.id) 0))
      hread' (Chain.leads_of_agrees hfirst hlater ▸ hleads)
      (hfirst.nodes.trans (matched_of_leads hx hleads)) hc.unmodified hc.single
      (hfirst.frame.source.trans (source_of_parse hx))
    show Alike Outcome.outline (p.execute acts) ((p'.under _).execute acts)
    rw [hunder]
    exact Parse.execute_alike hacts hread hread' hfirst hlater

/-- Whatever a line comes to, it comes to behind any number of words that lead back to the root: the
same value, successes, fork and causes of failures, and the same commands and modifiers are called, with
the same sources and values. -/
theorem run_behind_words {g : Grammar S C M} {acts : Actions S C M} {source : S} {c : Tree S C M}
    (hg : g.Unplaced) (hacts : acts.Unplaced) (hc : g.LeadsBack source c) (n : Nat) {line : Text}
    {o : Outcome} {events : List (Event S C M)} (h : g.run acts source line = (.ok o, events)) :
    ∃ o' events', g.run acts source (spell (List.replicate n c.name) ++ line) = (.ok o', events') ∧
      o'.value = o.value ∧ o'.successes = o.successes ∧ o'.forked = o.forked ∧
      o'.failures.map SyntaxError.cause = o.failures.map SyntaxError.cause ∧
      invoked events' = invoked events := by
  induction n with
  | zero => exact ⟨o, events, h, rfl, rfl, rfl, rfl, rfl⟩
  | succ n ih =>
    obtain ⟨o₁, events₁, h₁, hvalue, hsuccesses, hforked, hcauses, hinvoked⟩ := ih
    have hline : spell (List.replicate (n + 1) c.name) ++ line =
        c.name ++ [separator] ++ (spell (List.replicate n c.name) ++ line) := by
      rw [List.replicate_succ, spell_cons]
      simp
    have halike := run_behind_word hg hacts hc h₁
    rw [hline]
    rw [h₁] at halike
    generalize g.run acts source (c.name ++ [separator] ++ _) = y at halike
    cases halike with
    | @returned _ o' _ events' result calls =>
      simp only [Outcome.outline, Prod.mk.injEq] at result
      exact ⟨o', events', rfl, result.1.trans hvalue, result.2.1.trans hsuccesses,
        result.2.2.1.trans hforked, result.2.2.2.trans hcauses, calls.trans hinvoked⟩

end Grammar

end

namespace Grammar

/-- `again` leads back to the root, `each` does for two sources in place of one, and `say` takes a
word. -/
def relay : Grammar Int Unit Unit :=
  let root : Tree Int Unit Unit := .node [0] (.ofKind .root)
    [.node [1] ⟨.literal (text "again"), none, none, none, some [0], none, false⟩ [],
      .node [2] ⟨.literal (text "each"), none, none, none, some [0], some (), true⟩ [],
      .node [3] (.ofKind (.literal (text "say")))
        [.node [4] ⟨.argument (text "what") (BuiltIn.string .word).toArgumentType none, some (),
          none, none, none, none, false⟩ []]]
  ⟨root, fun id => if id = [0] then root else .bare id⟩

/-- Even sources are refused. -/
def relayActions : Actions Int Unit Unit where
  run _ context :=
    if context.source % 2 = 0 then .error (.custom (text "even"))
    else (context.askString (text "what")).map fun said => .ofNat said.length
  derive _ context := .ok [10 * context.source + 1, 10 * context.source + 2]

theorem relay_unplaced : relay.Unplaced := by
  have hbelow : ∀ t ∈ relay.root.subtrees, t.traits.contextRequirement = none ∧
      ∀ name type provider, t.traits.kind = .argument name type provider → type.Local := by
    have hsubtrees : relay.root.subtrees = relay.root :: (relay.root.children ++
        [.node [4] ⟨.argument (text "what") (BuiltIn.string .word).toArgumentType none,
          some (), none, none, none, none, false⟩ []]) := rfl
    rw [hsubtrees]
    intro t ht
    simp only [relay, Tree.children, List.cons_append, List.nil_append, List.mem_cons,
      List.not_mem_nil, or_false] at ht
    rcases ht with rfl | rfl | rfl | rfl | rfl
    · exact ⟨rfl, fun _ _ _ hk => by cases hk⟩
    · exact ⟨rfl, fun _ _ _ hk => by cases hk⟩
    · exact ⟨rfl, fun _ _ _ hk => by cases hk⟩
    · exact ⟨rfl, fun _ _ _ hk => by cases hk⟩
    · exact ⟨rfl, fun _ _ _ hk => by cases hk; exact (BuiltIn.uniform _).isLocal⟩
  have hnode : ∀ t, relay.HasNode t → t.traits.contextRequirement = none ∧
      ∀ name type provider, t.traits.kind = .argument name type provider → type.Local := by
    intro t ht
    rcases ht.cases_of_root [0] fun _ => rfl with ht | ht
    · exact hbelow t ht
    · rw [ht]
      exact ⟨rfl, fun _ _ _ hk => by cases hk⟩
  exact ⟨fun t ht => (hnode t ht).2,
    fun t ht q hq => absurd ((hnode t ht).1.symm.trans hq) (by simp)⟩

theorem relayActions_unplaced : relayActions.Unplaced where
  run _ x y h := by
    have hask : y.askString (text "what") = x.askString (text "what") := h.ask_eq ..
    simp only [relayActions, h.source, hask]
  derive _ x y h := by simp only [relayActions, h.source]

/-- Two forks in a row, where half of the branches fail, behind two more words. -/
theorem run_behind_words_relay :
    ∃ o events o' events',
      relay.run relayActions 0 (text "each each say hi") = (.ok o, events) ∧
      relay.run relayActions 0 (text "again again each each say hi") = (.ok o', events') ∧
      o.successes = 2 ∧ o.failures.length = 2 ∧ o'.successes = o.successes ∧
      o'.failures.map SyntaxError.cause = o.failures.map SyntaxError.cause ∧
      invoked events' = invoked events := by
  have hback : relay.LeadsBack 0
      (.node [1] ⟨.literal (text "again"), none, none, none, some [0], none, false⟩ []) :=
    ⟨rfl, rfl, by decide, rfl, rfl, rfl, rfl, rfl, rfl⟩
  have h : (relay.run relayActions 0 (text "each each say hi")).1.map (fun o =>
      (o.successes, o.failures.length)) = .ok (2, 2) := by
    cbv
  obtain ⟨o, ho, hcounts⟩ := map_eq_ok_iff.mp h
  obtain ⟨hsuccesses, hfailures⟩ := Prod.mk.inj hcounts
  obtain ⟨o', events', h', -, hsuccesses', -, hcauses, hinvoked⟩ :=
    run_behind_words relay_unplaced relayActions_unplaced hback 2 (Prod.ext ho rfl)
  exact ⟨o, _, o', events', Prod.ext ho rfl, h', hsuccesses, hfailures, hsuccesses', hcauses,
    hinvoked⟩

/-- A word with a separator in it leads back to the root, and `go` stands beside it. -/
def detached : Grammar Unit Unit Unit :=
  let root : Tree Unit Unit Unit := .node [0] (.ofKind .root)
    [.node [1] ⟨.literal (text "a b"), none, none, none, some [0], none, false⟩ [],
      .node [2] ⟨.literal (text "go"), some (), none, none, none, none, false⟩ []]
  ⟨root, fun id => if id = [0] then root else .bare id⟩

/-- A word is looked up by a token, which no separator is part of: such a word never matches. -/
theorem run_behind_word_with_separator :
    (∃ c ∈ detached.root.children, c.traits = ⟨.literal (text "a b"), none, none, none,
      some detached.root.id, none, false⟩ ∧ detached.resolve detached.root.id = detached.root) ∧
    (detached.run ⟨fun _ _ => .ok 1, fun _ _ => .ok []⟩ () (text "go")).1 = .ok ⟨1, 1, false, []⟩ ∧
    (detached.run ⟨fun _ _ => .ok 1, fun _ _ => .ok []⟩ ()
      (text "a b" ++ [separator] ++ text "go")).1 =
        .error (.rejected ⟨.unknownCommand, some (text "a b go", 0)⟩) :=
  ⟨⟨_, List.mem_cons_self, rfl, rfl⟩, by cbv, by cbv⟩

end Grammar

end CommandTree
