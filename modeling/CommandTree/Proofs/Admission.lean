import CommandTree.Proofs.Branching
import CommandTree.Proofs.Calls

/-!
Who may run a command. A parse only goes down to children that admit its source, so between the node
that a frame begins at and the node with the command everything admits it. Main statement: when a
command runs, its node and all nodes above it admit the source, down from the root or, behind a
redirect, down from the target of the last one; the target itself and the nodes above it are not asked.
-/

namespace CommandTree

namespace Tree

variable {S C M : Type}

/-- Going down from a base to children that a source may use. -/
inductive Opens (source : S) (base : Tree S C M) : Tree S C M → Prop
  | base : Opens source base base
  | child {t c : Tree S C M} (h : Opens source base t) (hc : c ∈ t.children)
      (admitted : c.admits source = .ok true) : Opens source base c

theorem Opens.has {source : S} {base t : Tree S C M} (h : base.Opens source t) : base.Has t := by
  induction h with
  | base => exact .top
  | child _ hc _ ih => exact ih.child hc

/-- All nodes above one that a source can go down to admit the source, but for the base and what stands
above it. -/
theorem Opens.admits_or_has {ts : List (Tree S C M)} (hids : (idsOf ts).Nodup) {source : S}
    {base t a : Tree S C M} (hbase : Among ts base) (h : base.Opens source t) (ha : Among ts a)
    (hat : a.Has t) : a.admits source = .ok true ∨ a.Has base := by
  induction h with
  | base => exact .inr hat
  | @child t c h hc admitted ih =>
    obtain ⟨u, hu, hua⟩ := ha
    obtain ⟨v, hv, hvb⟩ := hbase
    have hvt := hvb.trans h.has
    obtain rfl := eq_of_common_id hids hu hv (hua.trans hat).id_mem (hvt.child hc).id_mem
    rcases hvt.above_child (hids.sublist (ids_sublist_idsOf hu)) hc hua hat with rfl | hat
    · exact .inl admitted
    · exact ih hat

end Tree

namespace Grammar

variable {S C M : Type} {g : Grammar S C M}

/-- A frame goes down from its root to a node, by children that admit the source. Its command is that of
the last node that it matched. -/
structure Descends (g : Grammar S C M) (source : S) (s : Segment S C M) (t : Tree S C M) :
    Prop where
  source_eq : s.frame.source = source
  way : ∃ k, s.frame.root = some k ∧ g.Reachable (g.resolve k) ∧ (g.resolve k).Opens source t
  admitted : ∀ m ∈ s.frame.matched, (g.resolve m.node).admits source = .ok true
  last : (s.frame.matched = [] ∧ s.command = none) ∨
    ∃ m, s.frame.matched.getLast? = some m ∧ g.resolve m.node = t ∧ s.command = t.command

theorem Descends.start {source : S} {k : NodeId} (h : g.Reachable (g.resolve k)) (position : Int) :
    g.Descends source (.start source (some k) position) (g.resolve k) where
  source_eq := rfl
  way := ⟨k, rfl, h, .base⟩
  admitted := by simp [Segment.start, Frame.start]
  last := .inl ⟨rfl, rfl⟩

theorem Reachable.opens {source : S} {base t : Tree S C M} (h : g.Reachable base)
    (ht : base.Opens source t) : g.Reachable t := by
  induction ht with
  | base => exact h
  | child _ hc _ ih => exact ih.child hc

theorem Descends.reachable {source : S} {s : Segment S C M} {t : Tree S C M}
    (h : g.Descends source s t) : g.Reachable t := by
  obtain ⟨k, -, hk, hway⟩ := h.way
  exact hk.opens hway

/-- One more match goes one step further down. -/
theorem Descends.matched (hg : g.Coherent) {source : S} {s s' : Segment S C M} {t c : Tree S C M}
    {r : Reader} {n : Nat} (h : g.Descends source s t) (hc : c ∈ t.relevant r)
    (hu : c.Usable s.frame r) (hm : c.attempt r s = .ok (s', n)) :
    g.Descends source s' c ∧ s'.frame.root = s.frame.root := by
  obtain ⟨hchild, hroot⟩ := Tree.mem_relevant hc
  obtain ⟨hsource, hkeep, ⟨m, hmc, hmatched⟩, hcommand⟩ := Tree.records_of_attempt hroot hm
  have hadmits : c.admits source = .ok true := h.source_eq ▸ hu.admitted
  have hresolve : g.resolve m.node = c := by
    rw [hmc]
    exact hg c (h.reachable.child hchild)
  obtain ⟨k, hk, hreach, hway⟩ := h.way
  refine ⟨⟨hsource.trans h.source_eq, ⟨k, hkeep.trans hk, hreach, hway.child hchild hadmits⟩,
    fun m' hm' => ?_, .inr ⟨m, ?_, hresolve, hcommand⟩⟩, hkeep⟩
  · rw [hmatched] at hm'
    rcases List.mem_append.mp hm' with hm' | hm'
    · exact h.admitted m' hm'
    · rwa [List.mem_singleton.mp hm', hresolve]
  · rw [hmatched, List.getLast?_concat]

/-- Every frame of a parse goes down from its root by children that admit the source, and the first one
keeps its root. -/
theorem Reaches.descends (hg : g.Coherent) {source : S} {t : Tree S C M} {r : Reader}
    {s : Segment S C M} {p : Parse S C M} (h : g.Reaches t r s p) (hs : g.Descends source s t) :
    p.chain.first.frame.root = s.frame.root ∧
      ∀ s' ∈ p.chain.all, ∃ t', g.Descends source s' t' := by
  induction h with
  | stop t r s errors => exact ⟨rfl, List.forall_mem_singleton.mpr ⟨t, hs⟩⟩
  | @rest t c r s s' n hc hu hm hspent =>
    obtain ⟨hs', hroot⟩ := hs.matched hg hc hu hm
    exact ⟨hroot, List.forall_mem_singleton.mpr ⟨c, hs'⟩⟩
  | child hc hu hm _ _ _ ih =>
    obtain ⟨hs', hroot⟩ := hs.matched hg hc hu hm
    obtain ⟨hfirst, hall⟩ := ih hs'
    exact ⟨hfirst.trans hroot, hall⟩
  | @redirect t c r s s' n target p hc hu hm _ hleads _ ih =>
    obtain ⟨hs', hroot⟩ := hs.matched hg hc hu hm
    have htarget : g.Reachable (g.resolve target) := hs'.reachable.redirect hleads
    obtain ⟨-, hall⟩ := ih (hs.source_eq ▸ .start htarget _)
    exact ⟨hroot, List.forall_mem_cons.mpr ⟨⟨c, hs'⟩, hall⟩⟩

/-- The frames of a parse go down from where they begin, the first one from the root. -/
theorem descends_of_parse (hg : g.Coherent) {source : S} {r : Reader} {p : Parse S C M}
    (hp : g.parse source r = .ok p) : p.chain.first.frame.root = some g.root.id ∧
      ∀ s ∈ p.chain.all, ∃ t, g.Descends source s t := by
  have hroot : g.resolve g.root.id = g.root := hg g.root .root
  have hreach : g.Reachable (g.resolve g.root.id) := by
    rw [hroot]
    exact .root
  have hstart : g.Descends source (.start source (some g.root.id) r.cursor)
      (g.resolve g.root.id) := .start hreach r.cursor
  rw [hroot] at hstart
  exact (reaches_of_parseAt hp).descends hg hstart

/-- Every node that a parse matches admits its source, also one that only leads elsewhere. -/
theorem admits_of_matched (hg : g.Coherent) {source : S} {r : Reader} {p : Parse S C M}
    (hp : g.parse source r = .ok p) {s : Segment S C M} (hs : s ∈ p.chain.all) {m : Match}
    (hm : m ∈ s.frame.matched) : (g.resolve m.node).admits source = .ok true := by
  obtain ⟨t, ht⟩ := (descends_of_parse hg hp).2 s hs
  exact ht.admitted m hm

end Grammar

theorem Chain.last_mem {S C M : Type} (c : Chain S C M) : c.last ∈ c.all := by
  rw [last, all]
  cases hlast : c.later.getLast? with
  | none => simp [List.getLastD_eq_getLast?, hlast]
  | some s =>
    rw [List.getLastD_eq_getLast?, hlast]
    exact List.mem_cons_of_mem _ (List.mem_of_getLast? hlast)

/-- What holds of the calls of a task, of its reports, and of all notices and lines of the log holds of
everything that doing the task notes. -/
theorem Task.forall_each {S C M T : Type} {task : Task S C M T} {P : Event S C M → Prop}
    {contexts : List (Context S)} (hcall : ∀ x ∈ contexts, P (task.call x))
    (hreport : ∀ x ts, ∀ e ∈ task.report x ts, P e) (hnotice : ∀ x success v, P (.notified x success v))
    (hline : ∀ line, P (.logged line)) (forked : Bool) : ∀ e ∈ (task.each forked contexts).2, P e := by
  induction contexts with
  | nil => simp [each]
  | cons x rest ih =>
    obtain ⟨hx, hrest⟩ := List.forall_mem_cons.mp hcall
    rw [each]
    split
    · exact List.forall_mem_cons.mpr ⟨hx, List.forall_mem_append.mpr ⟨hreport x _, ih hrest⟩⟩
    · split
      · exact List.forall_mem_cons.mpr ⟨hx, List.forall_mem_cons.mpr ⟨hnotice x _ _,
          List.forall_mem_cons.mpr ⟨hline _, ih hrest⟩⟩⟩
      · exact List.forall_mem_cons.mpr ⟨hx, List.forall_mem_singleton.mpr (hnotice x _ _)⟩
    · exact List.forall_mem_singleton.mpr hx

namespace Segment

variable {S C M : Type}

/-- No command runs on the way to the last frame. -/
theorem not_ran_of_journey (acts : Actions S C M) (input : Text) (s : Segment S C M)
    (later : List (Segment S C M)) (a : Arrival S) :
    ∀ e ∈ (s.journey acts input later a).2, ∀ command context, e ≠ .ran command context := by
  have hcross : ∀ (s next : Segment S C M) (a : Arrival S),
      ∀ e ∈ (s.cross acts input next a).2, ∀ command context, e ≠ .ran command context := by
    intro s next a
    unfold cross
    split
    · simp
    dsimp only
    split
    · simp
    split
    · simp
    · exact Task.forall_each (by simp [Task.derive]) (by simp [Task.derive]) (by simp) (by simp) _
  induction later generalizing s a with
  | nil => simp [journey]
  | cons next later ih =>
    rw [journey]
    have hfirst := hcross s next a
    rcases hc : s.cross acts input next a with ⟨f | a', events⟩
    · rwa [hc] at hfirst
    · rw [hc] at hfirst
      exact List.forall_mem_append.mpr ⟨hfirst, ih next a'⟩

end Segment

/-- Only the command of the last frame runs, in the context of that frame. -/
theorem Parse.ran_of_execute {S C M : Type} {acts : Actions S C M} {p : Parse S C M} {command : C}
    {context : Context S} (h : .ran command context ∈ (p.execute acts).2) :
    p.chain.last.command = some command ∧
      ∃ source, context = (p.chain.last.withSource source).context p.reader.input := by
  cases hdone : p.reader.canRead 1 with
  | true => simp [execute, hdone] at h
  | false =>
    rw [p.execute_eq_branching acts hdone, branching] at h
    dsimp only at h
    split at h
    · have hjourney := Segment.not_ran_of_journey acts p.reader.input p.chain.first p.chain.later
        ⟨[p.chain.first.frame.source], false, []⟩
      simp only [Chain.travel] at h
      rcases hj : p.chain.first.journey acts p.reader.input p.chain.later
        ⟨[p.chain.first.frame.source], false, []⟩ with ⟨f | a, events⟩
      · rw [hj] at h hjourney
        exact absurd rfl (hjourney _ h command context)
      · rw [hj] at h hjourney
        rcases List.mem_append.mp h with h | h
        · exact absurd rfl (hjourney _ h command context)
        · unfold Segment.arrive at h
          cases hc : p.chain.last.command with
          | none => simp [hc] at h
          | some known =>
            rw [hc] at h
            have hevents : ∀ e ∈ ((Task.run acts known).each a.forked
                (p.chain.last.contexts p.reader.input a.sources)).2, ∀ command context,
                e = .ran command context → known = command ∧ ∃ source,
                  context = (p.chain.last.withSource source).context p.reader.input := by
              refine Task.forall_each ?_ (by simp [Task.run]) (by simp) (by simp) _
              rintro x hx command context heq
              obtain ⟨source, -, rfl⟩ := List.mem_map.mp hx
              obtain ⟨rfl, rfl⟩ := Event.ran.inj heq
              exact ⟨rfl, source, rfl⟩
            obtain ⟨rfl, hsource⟩ := hevents _ h command context rfl
            exact ⟨rfl, hsource⟩
    · simp at h

/-- Silence hides the log and nothing else: what a run called is told all the same. -/
theorem calls_execute {S C M : Type} (w : Workbench S C M) (acts : Actions S C M)
    (p : Parse S C M) : calls (w.execute acts p).2 = calls (p.execute acts).2 := by
  change calls (w.heard (p.execute acts).2) = _
  rw [Workbench.heard]
  split
  · rw [calls, List.filterMap_filter]
    exact List.filterMap_congr fun e _ => by cases e <;> rfl
  · rfl

namespace Workbench

variable {S C M : Type}

/-- When a command runs, the node that it belongs to admits the source of the parse, and so does every
node above it, except that behind a redirect the target of the last one and the nodes above that are not
asked. -/
theorem admitted_of_ran (options : Options) (calls : List (Call S C M)) (source : S) (r : Reader)
    (acts : Actions S C M) (p : Parse S C M) (command : C) (context : Context S)
    (hp : (run options calls).grammar.parse source r = .ok p)
    (hran : .ran command context ∈ (p.execute acts).2) :
    ∃ m ∈ context.matched.getLast?,
      ((run options calls).resolve m.node).command = some command ∧
      ((run options calls).resolve m.node).admits source = .ok true ∧
      ∀ a, Tree.Among (run options calls).trees a → a.Has ((run options calls).resolve m.node) →
        a.admits source = .ok true ∨ p.chain.later ≠ [] ∧
          ∃ target ∈ context.root, a.Has ((run options calls).resolve target) := by
  have hw := sound_run options calls
  generalize run options calls = w at hw hp ⊢
  obtain ⟨hfirst, hall⟩ := Grammar.descends_of_parse hw.grammar.2 hp
  obtain ⟨hcommand, derived, rfl⟩ := Parse.ran_of_execute hran
  obtain ⟨owner, howner⟩ := hall _ p.chain.last_mem
  obtain ⟨k, hk, hreach, hway⟩ := howner.way
  rcases howner.last with ⟨-, hnone⟩ | ⟨m, hm, hresolve, hcommand'⟩
  · simp [hnone] at hcommand
  have hresolve : w.resolve m.node = owner := hresolve
  have hm' : m ∈ p.chain.last.frame.matched := List.mem_of_getLast? hm
  refine ⟨m, hm, ?_, howner.admitted m hm', fun a ha hhas => ?_⟩
  · rw [hresolve, ← hcommand', hcommand]
  rw [hresolve] at hhas
  have hbase : Tree.Among w.trees (w.resolve k) := by
    rcases hw.resolve_cases k with ⟨hbase, -⟩ | ⟨hbare, -⟩
    · exact hbase
    · -- Below a target that is missing there is no command.
      have hway : (w.resolve k).Has owner := hway.has
      rw [hbare] at hway
      rcases Tree.has_iff.mp hway with rfl | ⟨c, hc, -⟩
      · exact absurd (hcommand.symm.trans hcommand') nofun
      · exact absurd hc List.not_mem_nil
  rcases hway.admits_or_has hw.ids hbase ha hhas with hadmits | habove
  · exact .inl hadmits
  · cases hlater : p.chain.later with
    | cons next later => exact .inr ⟨by simp, k, hk, habove⟩
    | nil =>
      have hroot : k = w.root.id := by
        rw [Chain.last, hlater, List.getLastD_nil, hfirst] at hk
        exact (Option.some.inj hk).symm
      have hmem : w.root ∈ w.trees := List.mem_cons_self
      rw [hroot, resolve_of_among hw.ids ⟨w.root, hmem, .top⟩] at habove
      obtain rfl := Tree.Among.eq_top hw.ids hmem ha habove
      exact .inl (by rw [Tree.admits, hw.root_traits]; rfl)

/-- Only some sources may use `admin`, below which stands the command `stop`; `halt` leads to
`admin`. -/
def gate : Workbench Bool Unit Unit :=
  run ⟨true, .standard⟩
    [.start (text "stop") (.literal (text "stop")),
      .change (text "stop") (.command ()),
      .start (text "admin") (.literal (text "admin")),
      .change (text "admin") (.requirement .ok),
      .change (text "admin") (.built (text "stop")),
      .register (text "admin"),
      .start (text "halt") (.literal (text "halt")),
      .change (text "halt") (.forward (some (.path [text "admin"])) none false),
      .register (text "halt")]

def gateActions : Actions Bool Unit Unit := ⟨fun _ _ => .ok 1, fun _ _ => .ok []⟩

/-- The nodes that the contexts of the commands matched. -/
def ranBehind {S C M : Type} (events : List (Event S C M)) : List (C × List NodeId) :=
  events.filterMap fun
    | .ran command context => some (command, context.matched.map Match.node)
    | _ => none

theorem ran_of_ranBehind {S C M : Type} {events : List (Event S C M)} {command : C}
    {ids : List NodeId} (h : (command, ids) ∈ ranBehind events) :
    ∃ context : Context S, .ran command context ∈ events ∧
      context.matched.map Match.node = ids := by
  obtain ⟨e, he, hids⟩ := List.mem_filterMap.mp h
  cases e with
  | ran known context =>
    obtain ⟨rfl, rfl⟩ := Prod.mk.inj (Option.some.inj hids)
    exact ⟨context, he, rfl⟩
  | derived | notified | logged => simp at hids

/-- Without a redirect the way to `stop` goes through `admin`, which admits the source. -/
theorem admitted_of_ran_gate :
    ∃ p context, gate.grammar.parse true (.ofText (text "admin stop")) = .ok p ∧
      .ran () context ∈ (p.execute gateActions).2 ∧ p.chain.later = [] ∧
      ∀ a, Tree.Among gate.trees a → a.Has (gate.resolve [2, 0]) → a.admits true = .ok true := by
  have h : (gate.grammar.parse true (.ofText (text "admin stop"))).map
      (fun p => (ranBehind (p.execute gateActions).2, p.chain.later.length)) =
        .ok ([((), [[2], [2, 0]])], 0) := by cbv
  obtain ⟨p, hp, heq⟩ := map_eq_ok_iff.mp h
  obtain ⟨hbehind, hlater⟩ := Prod.mk.inj heq
  have hlater := List.length_eq_zero_iff.mp hlater
  obtain ⟨context, hran, hids⟩ := ran_of_ranBehind (hbehind ▸ List.mem_singleton_self _)
  obtain ⟨m, hm, -, -, habove⟩ := admitted_of_ran _ _ true _ gateActions p () context hp hran
  have hnode : m.node = [2, 0] := by
    have hlast := congrArg List.getLast? hids
    rw [List.getLast?_map, hm] at hlast
    simpa using hlast
  refine ⟨p, context, hp, hran, hlater, fun a ha hhas => ?_⟩
  rcases habove a ha (hnode ▸ hhas) with hadmits | ⟨hne, -⟩
  · exact hadmits
  · exact absurd hlater hne

/-- Behind the redirect `stop` runs for a source that `admin` refuses. -/
theorem ran_below_refusing_target :
    ∃ p context, gate.grammar.parse false (.ofText (text "halt stop")) = .ok p ∧
      .ran () context ∈ (p.execute gateActions).2 ∧
      ∃ m ∈ context.matched.getLast?, (gate.resolve m.node).command = some () ∧
        ∃ a ∈ gate.root.children, a.Has (gate.resolve m.node) ∧ a.admits false = .ok false := by
  have h : (gate.grammar.parse false (.ofText (text "halt stop"))).map
      (fun p => ranBehind (p.execute gateActions).2) = .ok [((), [[2, 0]])] := by cbv
  obtain ⟨p, hp, hbehind⟩ := map_eq_ok_iff.mp h
  obtain ⟨context, hran, hids⟩ := ran_of_ranBehind (hbehind ▸ List.mem_singleton_self _)
  obtain ⟨m, hm, hnode⟩ := List.map_eq_singleton_iff.mp hids
  have hchild : (gate.resolve [2]).children = [gate.resolve [2, 0]] := by cbv
  have hroot : gate.root.children = [gate.resolve [2], gate.resolve [4]] := by cbv
  refine ⟨p, context, hp, hran, m, by rw [hm]; rfl, ?_, gate.resolve [2],
    by rw [hroot]; exact List.mem_cons_self, ?_, by cbv⟩
  · rw [hnode]
    cbv
  · rw [hnode]
    exact .child .top (by rw [hchild]; exact List.mem_singleton_self _)

end Workbench

end CommandTree
