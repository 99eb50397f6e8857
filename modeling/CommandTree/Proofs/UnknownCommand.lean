import CommandTree.Proofs.Branching

/-!
Running a parse that comes to no command. It is reported as an unknown command when already the
first frame leads nowhere. Behind a redirect that goes on nothing is reported: unless a modifier
fails, the run returns without any result.
-/

namespace CommandTree

/-- A fault that ends a task for many contexts is one of the faults of the task. -/
theorem Task.act_of_each_error {S C M T : Type} {task : Task S C M T} {forked : Bool} {f : Fault}
    {contexts : List (Context S)} {events : List (Event S C M)}
    (h : task.each forked contexts = (.error f, events)) :
    ∃ context ∈ contexts, task.act context = .error f := by
  induction contexts generalizing events with
  | nil => simp [each] at h
  | cons context rest ih =>
    have hrest : ∀ {outcome more}, task.each forked rest = (outcome, more) → outcome = .error f →
        ∃ context' ∈ context :: rest, task.act context' = .error f := by
      rintro _ more hmore rfl
      obtain ⟨context', hm, hact⟩ := ih hmore
      exact ⟨context', List.mem_cons_of_mem _ hm, hact⟩
    rw [each] at h
    rcases heach : task.each forked rest with ⟨outcome, more⟩
    rw [heach] at h
    cases hact : task.act context with
    | ok ts =>
      simp only [hact, Prod.mk.injEq] at h
      exact hrest heach (map_eq_error_iff.mp h.1)
    | error e =>
      by_cases hkept : ∃ e', e = .rejected e' ∧ forked = true
      · obtain ⟨e', rfl, rfl⟩ := hkept
        simp only [hact, if_true, Prod.mk.injEq] at h
        exact hrest heach (map_eq_error_iff.mp h.1)
      · refine ⟨context, List.mem_cons_self, ?_⟩
        cases e <;> cases forked <;> simp_all

namespace Segment

variable {S C M : Type}

theorem derive_of_cross_error {acts : Actions S C M} {input : Text} {s next : Segment S C M}
    {a : Arrival S} {f : Fault} {events : List (Event S C M)}
    (h : s.cross acts input next a = (.error f, events)) :
    ∃ modifier source, s.modifier = some modifier ∧
      acts.derive modifier ((s.withSource source).context input) = .error f := by
  unfold cross at h
  split at h
  · simp at h
  dsimp only at h
  split at h
  · simp at h
  cases hm : s.modifier with
  | none => simp [hm] at h
  | some modifier =>
    rcases heach : (Task.derive acts modifier).each (a.forked || s.forks)
      (s.contexts input a.sources) with ⟨outcome, more⟩
    simp only [hm, heach, Prod.mk.injEq] at h
    cases outcome with
    | ok result => simp [Except.map] at h
    | error e =>
      obtain rfl : e = f := by simpa [Except.map] using h.1
      obtain ⟨context, hmem, hact⟩ := Task.act_of_each_error heach
      obtain ⟨source, -, rfl⟩ := List.mem_map.mp hmem
      exact ⟨modifier, source, rfl, hact⟩

/-- A fault on the way to the last frame is one of a modifier. -/
theorem derive_of_journey_error {acts : Actions S C M} {input : Text} {s : Segment S C M}
    {later : List (Segment S C M)} {a : Arrival S} {f : Fault} {events : List (Event S C M)}
    (h : s.journey acts input later a = (.error f, events)) :
    ∃ k ∈ s :: later, ∃ modifier source, k.modifier = some modifier ∧
      acts.derive modifier ((k.withSource source).context input) = .error f := by
  induction later generalizing s a events with
  | nil => simp [journey] at h
  | cons next later ih =>
    rcases hc : s.cross acts input next a with ⟨crossed, events'⟩
    cases crossed with
    | error e =>
      obtain rfl : e = f := by
        rw [journey, hc] at h
        exact Except.error.inj (Prod.mk.inj h).1
      exact ⟨s, List.mem_cons_self, derive_of_cross_error hc⟩
    | ok a₁ =>
      rw [journey_cons hc] at h
      obtain ⟨k, hk, hderive⟩ := ih (Prod.ext (Prod.mk.inj h).1 rfl)
      exact ⟨k, List.mem_cons_of_mem s hk, hderive⟩

end Segment

namespace Parse

variable {S C M : Type}

/-- Without a command at the end, the run of a parse is reported as an unknown command if the first
frame leads nowhere. Else it ends with a fault of a modifier on the way; or all modifiers succeed,
and it returns without results. -/
theorem run_without_command (acts : Actions S C M) (p : Parse S C M)
    (h : p.reader.canRead 1 = false) (hc : p.chain.last.command = none) :
    (p.chain.leads = false ∧ p.execute acts = (.error (p.reader.reject .unknownCommand),
      [.notified (p.chain.first.context p.reader.input) false 0])) ∨
    (p.chain.leads = true ∧ ∃ f events, p.arrival acts = (.error f, events) ∧
      p.execute acts = (.error f, events) ∧ ∃ k ∈ p.chain.all, ∃ modifier source,
        k.modifier = some modifier ∧
          acts.derive modifier ((k.withSource source).context p.reader.input) = .error f) ∨
    (p.chain.leads = true ∧ ∃ a events, p.arrival acts = (.ok a, events) ∧
      p.execute acts = (.ok ⟨0, 0, a.forked, a.failures⟩, events)) := by
  rw [p.execute_eq_branching acts h, branching]
  cases hleads : p.chain.leads with
  | false => exact .inl ⟨rfl, rfl⟩
  | true =>
    rcases harrive : p.arrival acts with ⟨arrived, events⟩
    have hj := harrive
    unfold arrival at hj
    cases arrived with
    | error f =>
      refine .inr (.inl ⟨rfl, f, events, rfl, ?_, Segment.derive_of_journey_error hj⟩)
      simp [Chain.travel, hj, Except.map]
    | ok a =>
      refine .inr (.inr ⟨rfl, a, events, rfl, ?_⟩)
      cases hf : a.forked <;> simp [Chain.travel, hj, Segment.arrive, hc, Except.map, hf]

/-- A parse that comes to no command is run without an error exactly when its first frame leads on
and no modifier ends the run. It is reported as an unknown command when the first frame leads
nowhere. -/
theorem execute_without_command (acts : Actions S C M) (p : Parse S C M)
    (h : p.reader.canRead 1 = false) (hc : p.chain.last.command = none) :
    ((∃ o events, p.execute acts = (.ok o, events)) ↔
      p.chain.leads = true ∧ ∃ a events, p.arrival acts = (.ok a, events)) ∧
    (p.chain.leads = false → p.execute acts = (.error (p.reader.reject .unknownCommand),
      [.notified (p.chain.first.context p.reader.input) false 0])) ∧
    (p.chain.leads = true → ∀ f events, p.execute acts = (.error f, events) →
      ∃ k ∈ p.chain.all, ∃ modifier source, k.modifier = some modifier ∧
        acts.derive modifier ((k.withSource source).context p.reader.input) = .error f) ∧
    (p.chain.leads = true → ∀ o events, p.execute acts = (.ok o, events) →
      o.value = 0 ∧ o.successes = 0) := by
  rcases p.run_without_command acts h hc with ⟨hleads, hrun⟩ |
    ⟨hleads, f, events, harrive, hrun, hderive⟩ | ⟨hleads, a, events, harrive, hrun⟩
  · simp [hleads, hrun]
  · simp only [hleads, hrun, harrive, Prod.mk.injEq, Except.error.injEq]
    refine ⟨by simp, by simp, ?_, by simp⟩
    rintro - _ _ ⟨rfl, -⟩
    exact hderive
  · simp only [hleads, hrun, harrive, Prod.mk.injEq, Except.ok.injEq]
    refine ⟨by simp, by simp, by simp, ?_⟩
    rintro - _ _ ⟨rfl, -⟩
    exact ⟨rfl, rfl⟩

end Parse

/-- The word `alias` leads to `actual`; none of the words is a command. -/
def detour : Grammar Unit Unit Unit :=
  let actual : Tree Unit Unit Unit :=
    .node [1] (.ofKind (.literal (text "actual"))) [.node [2] (.ofKind (.literal (text "go"))) []]
  ⟨.node [0] (.ofKind .root)
    [actual, .node [3] ⟨.literal (text "alias"), none, none, none, some [1], none, false⟩ []],
    fun id => if id = [1] then actual else .bare id⟩

/-- Nothing is ever run or derived. -/
def detourActions : Actions Unit Unit Unit where
  run _ _ := .ok 0
  derive _ _ := .ok []

/-- Without the redirect the run is reported. -/
theorem execute_without_command_detour :
    ∃ p, detour.parse () (.ofText (text "actual go")) = .ok p ∧ p.reader.canRead 1 = false ∧
      p.chain.last.command = none ∧
      p.execute detourActions = (.error (p.reader.reject .unknownCommand),
        [.notified (p.chain.first.context p.reader.input) false 0]) := by
  have h : (detour.parse () (.ofText (text "actual go"))).map (fun p => (p.reader.canRead 1,
      p.chain.last.command, p.chain.leads)) = .ok (false, none, false) := by
    cbv
  obtain ⟨p, hp, heq⟩ := map_eq_ok_iff.mp h
  simp only [Prod.mk.injEq] at heq
  obtain ⟨hdone, hcommand, hleads⟩ := heq
  obtain ⟨-, hreported, -⟩ := p.execute_without_command detourActions hdone hcommand
  exact ⟨p, hp, hdone, hcommand, hreported hleads⟩

/-- Behind the redirect the same word is no command either, and yet the run returns. -/
theorem execute_detour_returns :
    ∃ p, detour.parse () (.ofText (text "alias go")) = .ok p ∧ p.reader.canRead 1 = false ∧
      p.chain.last.command = none ∧
      (p.execute detourActions).1 = .ok ⟨0, 0, false, []⟩ ∧
      (p.execute detourActions).2.length = 0 := by
  have h : (detour.parse () (.ofText (text "alias go"))).map (fun p => (p.reader.canRead 1,
      p.chain.last.command, (p.execute detourActions).1, (p.execute detourActions).2.length)) =
      .ok (false, none, .ok ⟨0, 0, false, []⟩, 0) := by
    cbv
  obtain ⟨p, hp, heq⟩ := map_eq_ok_iff.mp h
  simp only [Prod.mk.injEq] at heq
  exact ⟨p, hp, heq⟩

end CommandTree
