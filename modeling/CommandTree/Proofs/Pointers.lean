import CommandTree.Proofs.Calls

/-!
What redirects and labels point at. They are set to nodes that are there. Main statement: whatever calls
were made, redirects and labels point at identities that were given out before, so no node that is made
later is ever the target of one that was set earlier.
-/

namespace CommandTree

/-- The identity was given out before a step. -/
def NodeId.Before (step : Nat) (i : NodeId) : Prop := ∀ n ∈ i.head?, n < step

namespace Tree

variable {S C M : Type} {P : NodeId → Prop}

/-- All redirects in the tree are to identities with a property. -/
def LeadsInto (P : NodeId → Prop) (t : Tree S C M) : Prop := ∀ u, t.Has u → ∀ i ∈ u.redirect, P i

theorem leadsInto_iff {t : Tree S C M} :
    t.LeadsInto P ↔ (∀ i ∈ t.redirect, P i) ∧ ∀ c ∈ t.children, c.LeadsInto P := by
  constructor
  · exact fun h => ⟨h t .top, fun c hc u hu => h u ((Has.child .top hc).trans hu)⟩
  · rintro ⟨htop, hbelow⟩ u hu
    rcases has_iff.mp hu with rfl | ⟨c, hc, hcu⟩
    · exact htop
    · exact hbelow c hc u hcu

theorem leadsInto_bare (i : NodeId) : (bare i : Tree S C M).LeadsInto P :=
  leadsInto_iff.mpr ⟨nofun, fun _ hc => absurd hc List.not_mem_nil⟩

theorem LeadsInto.mono {Q : NodeId → Prop} {t : Tree S C M} (h : t.LeadsInto P)
    (hPQ : ∀ i, P i → Q i) : t.LeadsInto Q := fun u hu i hi => hPQ i (h u hu i hi)

theorem LeadsInto.of_has {t u : Tree S C M} (h : t.LeadsInto P) (hu : t.Has u) : u.LeadsInto P :=
  fun v hv => h v (hu.trans hv)

theorem LeadsInto.copy {t : Tree S C M} (h : t.LeadsInto P) (step : Nat) :
    (t.copy step).LeadsInto P := by
  induction t with
  | node i traits cs ih =>
    obtain ⟨htop, hbelow⟩ := leadsInto_iff.mp h
    refine leadsInto_iff.mpr ⟨htop, fun c hc => ?_⟩
    rw [Tree.copy, children_node, copyAll_eq_map] at hc
    obtain ⟨d, hd, rfl⟩ := List.mem_map.mp hc
    exact ih d hd (hbelow d hd)

theorem mem_graft {step : Nat} {cs : List (Tree S C M)} {c new d : Tree S C M}
    (h : d ∈ graft step cs c new) : d ∈ cs ∨ d = new ∨ ∃ e ∈ cs, d = absorb step e c := by
  unfold graft at h
  split at h
  · obtain ⟨e, he, rfl⟩ := List.mem_map.mp h
    split
    · exact .inr (.inr ⟨e, he, rfl⟩)
    · exact .inl he
  · rcases List.mem_append.mp h with h | h
    · exact .inl h
    · exact .inr (.inl (List.mem_singleton.mp h))

theorem LeadsInto.absorb {e c : Tree S C M} (he : e.LeadsInto P) (hc : c.LeadsInto P) (step : Nat) :
    (absorb step e c).LeadsInto P := by
  induction c generalizing e with
  | node i traits cs ih =>
    have hbelow := (leadsInto_iff.mp hc).2
    have hfold : ∀ ds ⊆ cs, ∀ es : List (Tree S C M), (∀ d ∈ es, d.LeadsInto P) →
        ∀ d ∈ ds.foldl (fun es c => graft step es c (c.copy step)) es, d.LeadsInto P := by
      intro ds hds
      induction ds with
      | nil => exact fun es hes => hes
      | cons c ds ihds =>
        intro es hes
        obtain ⟨hc, hds⟩ := List.cons_subset.mp hds
        refine ihds hds _ fun d hd => ?_
        rcases mem_graft hd with hd | rfl | ⟨e, he, rfl⟩
        · exact hes d hd
        · exact (hbelow c hc).copy step
        · exact ih c hc (hes e he) (hbelow c hc)
    obtain ⟨htop, hchildren⟩ := leadsInto_iff.mp he
    refine leadsInto_iff.mpr ⟨by simpa [redirect] using htop, ?_⟩
    rw [children_absorb]
    exact hfold cs (List.Subset.refl cs) _ hchildren

theorem leadsInto_insertChild {cs : List (Tree S C M)} {c : Tree S C M} (step : Nat)
    (hcs : ∀ d ∈ cs, d.LeadsInto P) (hc : c.LeadsInto P) :
    ∀ d ∈ insertChild step cs c, d.LeadsInto P := by
  intro d hd
  rw [insertChild_eq_graft] at hd
  rcases mem_graft hd with hd | rfl | ⟨e, he, rfl⟩
  · exact hcs d hd
  · exact hc
  · exact (hcs e he).absorb hc step

theorem LeadsInto.replaceAt {u new : Tree S C M} (hu : u.LeadsInto P) (hnew : new.LeadsInto P)
    (i : NodeId) : (replaceAt i u new).LeadsInto P := by
  induction u with
  | node j traits cs ih =>
    obtain ⟨htop, hbelow⟩ := leadsInto_iff.mp hu
    rw [Tree.replaceAt]
    split
    · exact hnew
    · refine leadsInto_iff.mpr ⟨htop, fun d hd => ?_⟩
      rw [children_node, replaceAtAll_eq_map] at hd
      obtain ⟨c, hc, rfl⟩ := List.mem_map.mp hd
      exact ih c hc (hbelow c hc)

end Tree

namespace Workbench

variable {S C M : Type} {P : NodeId → Prop} {w : Workbench S C M}

/-- All redirects on the workbench, and all labels, are to identities with a property. -/
structure LeadsInto (P : NodeId → Prop) (w : Workbench S C M) : Prop where
  trees : ∀ t ∈ w.trees, t.LeadsInto P
  builders : ∀ p ∈ w.builders, ∀ i ∈ p.2.redirect, P i
  labels : ∀ p ∈ w.labels, P p.2

theorem LeadsInto.mono {Q : NodeId → Prop} (h : w.LeadsInto P) (hPQ : ∀ i, P i → Q i) :
    w.LeadsInto Q where
  trees := fun t ht => (h.trees t ht).mono hPQ
  builders := fun p hp i hi => hPQ i (h.builders p hp i hi)
  labels := fun p hp => hPQ _ (h.labels p hp)

theorem leadsInto_ofOptions (options : Options) :
    (ofOptions options : Workbench S C M).LeadsInto P where
  trees := by
    intro t ht
    obtain rfl : t = .bare [] := by simpa [trees, ofOptions] using ht
    exact Tree.leadsInto_bare []
  builders := by simp [ofOptions]
  labels := by simp [ofOptions]

theorem LeadsInto.later (h : w.LeadsInto P) (step : Nat) : LeadsInto P { w with step } :=
  ⟨h.trees, h.builders, h.labels⟩

theorem LeadsInto.keep (h : w.LeadsInto P) {c : Tree S C M} (hc : c.LeadsInto P) :
    (w.keep c).LeadsInto P where
  trees := fun t ht => by
    rcases List.mem_cons.mp ((trees_keep w c).subset ht) with rfl | ht
    · exact hc
    · exact h.trees t ht
  builders := h.builders
  labels := h.labels

theorem LeadsInto.putAside (h : w.LeadsInto P) {c : Tree S C M} (hc : c.LeadsInto P) (hid : P c.id)
    (label : Text) : (w.putAside label c).LeadsInto P :=
  let hk := h.keep hc
  ⟨hk.trees, hk.builders, List.forall_mem_cons.mpr ⟨hid, hk.labels⟩⟩

theorem LeadsInto.resolve (h : w.LeadsInto P) (i : NodeId) : (w.resolve i).LeadsInto P := by
  cases hf : w.find? i with
  | none =>
    rw [Workbench.resolve, hf]
    exact Tree.leadsInto_bare i
  | some t =>
    obtain ⟨u, hu, hut⟩ := Tree.among_iff.mpr (List.mem_of_find?_eq_some hf)
    rw [Workbench.resolve, hf]
    exact (h.trees u hu).of_has hut

theorem LeadsInto.replace (h : w.LeadsInto P) {new : Tree S C M} (hnew : new.LeadsInto P)
    (i : NodeId) : (w.replace i new).LeadsInto P where
  trees := fun t ht => by
    rw [trees_replace, Tree.replaceAtAll_eq_map] at ht
    obtain ⟨u, hu, rfl⟩ := List.mem_map.mp ht
    exact (h.trees u hu).replaceAt hnew i
  builders := fun p hp => by
    obtain ⟨q, hq, rfl⟩ := List.mem_map.mp hp
    exact h.builders q hq
  labels := h.labels

theorem LeadsInto.addChild (h : w.LeadsInto P) {c : Tree S C M} (hc : c.LeadsInto P)
    (parent : NodeId) : (w.addChild parent c).2.LeadsInto P := by
  cases hroot : c.isRoot with
  | true =>
    rw [addChild_of_root hroot]
    exact h.keep hc
  | false =>
    obtain ⟨htop, hbelow⟩ := Tree.leadsInto_iff.mp (h.resolve parent)
    have hgrown : (w.grown (w.resolve parent) c).LeadsInto P :=
      Tree.leadsInto_iff.mpr ⟨htop, Tree.leadsInto_insertChild w.step hbelow hc⟩
    have hput := h.replace hgrown parent
    have hadd : (w.resolve parent).addChild w.step c = .ok (w.grown (w.resolve parent) c) := by
      rw [Tree.addChild, hroot]
      rfl
    simp only [Workbench.addChild, hadd]
    split
    · exact (hput.later _).keep hc
    · exact hput.later _

theorem LeadsInto.removeChild (h : w.LeadsInto P) (parent : NodeId) (name : Text) :
    (w.removeChild parent name).LeadsInto P := by
  obtain ⟨htop, hbelow⟩ := Tree.leadsInto_iff.mp (h.resolve parent)
  have hless : ((w.resolve parent).removeChild name).LeadsInto P :=
    Tree.leadsInto_iff.mpr ⟨htop, fun c hc => hbelow c (List.mem_of_mem_filter hc)⟩
  exact h.replace hless parent

theorem LeadsInto.held (h : w.LeadsInto P) {name : Text} {b : Builder S C M}
    (hb : w.named? name = some b) :
    (∀ i ∈ b.redirect, P i) ∧ ∀ t ∈ b.children ++ b.absorbed, t.LeadsInto P :=
  ⟨h.builders _ (mem_builders hb), fun t ht =>
    h.trees t ((held_subperm hb).subset (List.mem_append_left _ ht))⟩

theorem LeadsInto.store (h : w.LeadsInto P) (name : Text) {b : Builder S C M}
    (hredirect : ∀ i ∈ b.redirect, P i) (hheld : ∀ t ∈ b.children ++ b.absorbed, t.LeadsInto P) :
    (w.store name b).LeadsInto P where
  trees := fun t ht => by
    rcases List.mem_append.mp ((trees_store w name b).subset ht) with ht | ht
    · exact hheld t ht
    · exact h.trees t ((trees_without_sublist w name).subset ht)
  builders := fun p hp => by
    rcases List.mem_cons.mp hp with rfl | hp
    · exact hredirect
    · exact h.builders p (List.mem_of_mem_filter hp)
  labels := h.labels

theorem LeadsInto.build (h : w.LeadsInto P) {name : Text} {b : Builder S C M}
    (hb : w.named? name = some b) : (w.build b).1.LeadsInto P := by
  obtain ⟨hredirect, hheld⟩ := h.held hb
  have hsketch : (Tree.node [] b.toTraits b.children).LeadsInto P :=
    Tree.leadsInto_iff.mpr ⟨hredirect, fun c hc => hheld c (List.mem_append_left _ hc)⟩
  exact hsketch.copy w.step

theorem LeadsInto.take (h : w.LeadsInto P) {label : Text} {c : Tree S C M} {w' : Workbench S C M}
    (ht : w.take label = (.ok c, w')) : c.LeadsInto P ∧ w'.LeadsInto P := by
  have hall := (take_subperm ht).subset
  obtain ⟨-, rfl⟩ := take_ok ht
  exact ⟨h.trees c (hall (by simp)),
    ⟨fun t ht => h.trees t (hall (List.mem_cons_of_mem c ht)), h.builders, h.labels⟩⟩

/-- A target is found among the nodes that are there, or by its label. -/
theorem LeadsInto.locate (h : w.LeadsInto P) (hids : ∀ i ∈ Tree.idsOf w.trees, P i)
    {target : Target} {i : NodeId} (hi : w.locate target = .ok i) : P i := by
  unfold Workbench.locate at hi
  cases target with
  | path names =>
    cases ht : w.root.descend? names with
    | none => simp [locate?, ht] at hi
    | some t =>
      obtain rfl : t.id = i := by simpa [locate?, ht] using hi
      exact hids _ (Tree.Among.id_mem ⟨w.root, List.mem_cons_self, Tree.has_of_descend ht⟩)
  | label name =>
    cases hl : w.labels.lookup name with
    | none => simp [locate?, hl] at hi
    | some j =>
      obtain rfl : j = i := by simpa [locate?, hl] using hi
      obtain ⟨before, after, hsplit, -⟩ := List.lookup_eq_some_iff.mp hl
      exact h.labels (name, j) (by simp [hsplit])

theorem LeadsInto.attach (h : w.LeadsInto P) {c : Tree S C M} (hc : c.LeadsInto P) {name : Text}
    {b : Builder S C M} (hb : w.named? name = some b) :
    ((w.attach b c).2.2.store name (w.attach b c).2.1).LeadsInto P := by
  obtain ⟨hredirect, hheld⟩ := h.held hb
  rcases attach_cases w b c with ⟨-, -, ha⟩ | ⟨-, f, ha⟩
  · have hstored : (w.store name (b.withChild w.step c)).LeadsInto P := by
      refine h.store name hredirect fun t ht => ?_
      rcases List.mem_append.mp ht with ht | ht
      · exact Tree.leadsInto_insertChild w.step (fun d hd => hheld d (List.mem_append_left _ hd)) hc
          t ht
      · rw [Builder.withChild] at ht
        split at ht
        · rcases List.mem_append.mp ht with ht | ht
          · exact hheld t (List.mem_append_right _ ht)
          · exact List.mem_singleton.mp ht ▸ hc
        · exact hheld t (List.mem_append_right _ ht)
    rw [ha]
    exact hstored.later _
  · rw [ha]
    exact (h.keep hc).store name hredirect hheld

theorem LeadsInto.change (h : w.LeadsInto P) (hids : ∀ i ∈ Tree.idsOf w.trees, P i) (name : Text)
    (change : Change S C M) : (w.amend name [change.setting]).2.LeadsInto P := by
  cases hb : w.named? name with
  | none => rwa [amend, hb]
  | some b =>
    obtain ⟨hredirect, hheld⟩ := h.held hb
    rcases change_cases hb change with ⟨b', heq, hchildren, habsorbed, hset⟩ | ⟨c, w', hhad, heq⟩ <;>
      rw [heq]
    · refine h.store name (fun i hi => ?_) (by rwa [hchildren, habsorbed])
      rcases hset i hi with hi | ⟨target, hi⟩
      · exact hredirect i hi
      · exact h.locate hids hi
    · rcases hhad with ⟨n, b', hb', rfl, rfl⟩ | ⟨label, ht⟩
      · exact (h.later _).attach (h.build hb') hb
      · obtain ⟨hc, hw'⟩ := h.take ht
        exact hw'.attach hc (by rw [named?, (take_ok ht).2]; exact hb)

/-- A call sets redirects and labels only to nodes that are there before it or after it. -/
theorem LeadsInto.perform (h : w.LeadsInto P) (call : Call S C M)
    (hbefore : ∀ i ∈ Tree.idsOf w.trees, P i)
    (hafter : ∀ i ∈ Tree.idsOf (w.perform call).2.trees, P i) :
    (w.perform call).2.LeadsInto P := by
  have haside : ∀ (w' : Workbench S C M) (t : Tree S C M) label,
      (∀ i ∈ Tree.idsOf (w'.putAside label t).trees, P i) → P t.id := fun w' t label hids =>
    hids _ (Tree.Among.id_mem ⟨t, (trees_keep w' t).symm.subset List.mem_cons_self, .top⟩)
  cases call with
  | start name kind => exact h.store name nofun nofun
  | change name change => exact h.change hbefore name change
  | build name label =>
    rw [Workbench.perform] at hafter ⊢
    cases hb : w.named? name with
    | none => exact h
    | some b =>
      rw [hb] at hafter
      exact (h.later _).putAside (h.build hb) (haside _ _ _ hafter) label
  | clone target label =>
    rw [Workbench.perform] at hafter ⊢
    cases ht : w.locate target with
    | error f => exact h
    | ok i =>
      rw [ht] at hafter
      exact (h.later _).putAside ((h.resolve i).copy w.step) (haside _ _ _ hafter) label
  | register name =>
    cases hb : w.named? name with
    | none =>
      rw [Workbench.perform, hb]
      exact h
    | some b =>
      rw [perform_register hb]
      exact (h.later _).addChild (h.build hb) w.root.id
  | add target label =>
    rw [Workbench.perform]
    cases w.locate target with
    | error f => exact h
    | ok parent =>
      dsimp only
      rcases ht : w.take label with ⟨f | c, w'⟩
      · rw [take_error ht]
        exact h
      · obtain ⟨hc, hw'⟩ := h.take ht
        exact hw'.addChild hc parent
  | remove target name =>
    rw [Workbench.perform]
    cases w.locate target with
    | error f => exact h
    | ok parent => exact h.removeChild parent name

theorem step_le_addChild (w : Workbench S C M) (parent : NodeId) (c : Tree S C M) :
    w.step ≤ (w.addChild parent c).2.step := by
  unfold addChild
  dsimp only
  split
  · exact Nat.le_refl w.step
  · split <;> exact Nat.le_succ w.step

theorem step_le_attach (w : Workbench S C M) (b : Builder S C M) (c : Tree S C M) :
    w.step ≤ (w.attach b c).2.2.step := by
  unfold attach
  split
  · exact Nat.le_refl w.step
  · exact Nat.le_succ w.step

theorem step_of_take {label : Text} {c : Tree S C M} {w' : Workbench S C M}
    (ht : w.take label = (.ok c, w')) : w'.step = w.step := by
  rw [(take_ok ht).2]

theorem step_le_change (w : Workbench S C M) (name : Text) (change : Change S C M) :
    w.step ≤ (w.amend name [change.setting]).2.step := by
  cases hb : w.named? name with
  | none => rw [amend, hb]
  | some b =>
    rcases change_cases hb change with ⟨b', heq, -⟩ | ⟨c, w', hhad, heq⟩ <;> rw [heq]
    · exact Nat.le_refl w.step
    · rcases hhad with ⟨n, b', -, rfl, rfl⟩ | ⟨label, ht⟩
      · exact (Nat.le_succ w.step).trans (step_le_attach (w.build b').2 b _)
      · exact (step_of_take ht).ge.trans (step_le_attach w' b c)

/-- Steps are never counted back. -/
theorem step_le_perform (w : Workbench S C M) (call : Call S C M) :
    w.step ≤ (w.perform call).2.step := by
  cases call with
  | start name kind => exact Nat.le_refl w.step
  | change name change => exact step_le_change w name change
  | build name label =>
    rw [perform]
    split
    · exact Nat.le_refl w.step
    · exact Nat.le_succ w.step
  | clone target label =>
    rw [perform]
    split
    · exact Nat.le_refl w.step
    · exact Nat.le_succ w.step
  | register name =>
    cases hb : w.named? name with
    | none => rw [perform, hb]
    | some b =>
      rw [perform_register hb]
      exact (Nat.le_succ w.step).trans (step_le_addChild (w.build b).2 _ _)
  | add target label =>
    rw [perform]
    split
    · exact Nat.le_refl w.step
    · rcases ht : w.take label with ⟨f | c, w'⟩
      · rw [take_error ht]
      · exact (step_of_take ht).ge.trans (step_le_addChild _ _ _)
  | remove target name =>
    rw [perform]
    split <;> exact Nat.le_refl w.step

/-- Whatever calls were made, redirects and labels point at nodes that were made before. -/
theorem leadsInto_run (options : Options) (calls : List (Call S C M)) :
    (run options calls).LeadsInto (NodeId.Before (run options calls).step) := by
  refine (run_induction (P := fun w => w.Sound ∧ w.LeadsInto (NodeId.Before w.step))
    ⟨sound_ofOptions options, leadsInto_ofOptions options⟩ ?_ calls).2
  rintro w call ⟨hw, h⟩
  have hstep := step_le_perform w call
  have hlater : ∀ i, NodeId.Before w.step i → NodeId.Before (w.perform call).2.step i :=
    fun i hi n hn => Nat.lt_of_lt_of_le (hi n hn) hstep
  refine ⟨hw.perform call, (h.mono hlater).perform call ?_ (hw.perform call).fresh.older⟩
  exact fun i hi => hlater i (hw.fresh.older i hi)

end Workbench

end CommandTree
