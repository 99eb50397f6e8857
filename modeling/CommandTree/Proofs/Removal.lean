import CommandTree.Proofs.Catalogue
import CommandTree.Proofs.Pointers

/-!
Nodes that were removed. Main statement: a node that is gone from the workbench, and so every node below a
child that is removed, never stands on it again, whatever is done: all nodes that come later are copies made
at later steps.
-/

namespace CommandTree

open scoped List

namespace Tree

variable {S C M : Type}

theorem not_mem_ids_copy {step : Nat} {i : NodeId} (hi : i.Before step) (t : Tree S C M) :
    i ∉ (t.copy step).ids := by
  rw [ids_copy, List.mem_map]
  rintro ⟨k, -, rfl⟩
  exact Nat.lt_irrefl step (hi step rfl)

/-- Where a child is added nothing comes that was made before, unless the child brings it. -/
theorem not_mem_idsOf_insertChild {step : Nat} {cs : List (Tree S C M)} {c : Tree S C M} {i : NodeId}
    (hi : i.Before step) (hcs : Siblings cs) (hc : c.NamesDistinct) (hold : i ∉ idsOf cs)
    (hnew : i ∉ c.ids) : i ∉ idsOf (insertChild step cs c) := by
  intro hmem
  rcases Catalogued.mem_idsOf_insertChild hcs hc hmem with h | h | ⟨k, -, rfl⟩
  · exact hold h
  · exact hnew h
  · exact Nat.lt_irrefl step (hi step rfl)

/-- No other child has a node of the one that is removed. -/
theorem not_mem_ids_removeChild {t c u : Tree S C M} {name : Text} (hids : t.ids.Nodup)
    (hc : t.child? name = some c) (hu : c.Has u) : u.id ∉ (t.removeChild name).ids := by
  have hmem : c ∈ t.children := List.mem_of_find?_eq_some hc
  have hname : c.name = name := by simpa using List.find?_some hc
  rw [ids_eq] at hids
  obtain ⟨htop, hbelow⟩ := List.nodup_cons.mp hids
  rw [removeChild, ids_node, List.mem_cons, not_or]
  refine ⟨fun heq => htop (heq ▸ Among.id_mem ⟨c, hmem, hu⟩), fun hi => ?_⟩
  obtain ⟨d, hd, hud⟩ := mem_idsOf_iff.mp hi
  obtain ⟨hd, hne⟩ := List.mem_filter.mp hd
  obtain rfl := eq_of_common_id hbelow hd hmem hud hu.id_mem
  simp [hname] at hne

end Tree

namespace Workbench

variable {S C M : Type} {w : Workbench S C M} {i : NodeId}

/-- An identity that was given out, and that no node on the workbench has. -/
structure Gone (i : NodeId) (w : Workbench S C M) : Prop where
  older : i.Before w.step
  missing : ∀ t ∈ w.trees, i ∉ t.ids

theorem Gone.not_mem (h : w.Gone i) : i ∉ Tree.idsOf w.trees := fun hi =>
  let ⟨t, ht, hit⟩ := Tree.mem_idsOf_iff.mp hi
  h.missing t ht hit

theorem Gone.later (h : w.Gone i) {step : Nat} (hstep : w.step ≤ step) : Gone i { w with step } :=
  ⟨fun n hn => Nat.lt_of_lt_of_le (h.older n hn) hstep, h.missing⟩

theorem Gone.keep (h : w.Gone i) {c : Tree S C M} (hc : i ∉ c.ids) : (w.keep c).Gone i where
  older := h.older
  missing := fun t ht => by
    rcases List.mem_cons.mp ((trees_keep w c).subset ht) with rfl | ht
    · exact hc
    · exact h.missing t ht

theorem Gone.putAside (h : w.Gone i) {c : Tree S C M} (hc : i ∉ c.ids) (label : Text) :
    (w.putAside label c).Gone i :=
  ⟨(h.keep hc).older, (h.keep hc).missing⟩

theorem Gone.replace (h : w.Gone i) (hw : w.Sound) {t new : Tree S C M} (ht : Tree.Among w.trees t)
    (hnew : i ∉ new.ids) : (w.replace t.id new).Gone i where
  older := h.older
  missing := fun u hu hiu => by
    have hi : i ∈ Tree.idsOf (w.replace t.id new).trees := Tree.mem_idsOf_iff.mpr ⟨u, hu, hiu⟩
    rw [trees_replace] at hi
    have hall := (Tree.idsOf_replaceAtAll new ht hw.ids).subset (List.mem_append_left t.ids hi)
    exact (List.mem_append.mp hall).elim h.not_mem hnew

theorem Gone.addChild (h : w.Gone i) {c : Tree S C M} (hc : w.InHand c) (hic : i ∉ c.ids)
    (parent : NodeId) : (w.addChild parent c).2.Gone i := by
  have hw := hc.sound
  cases hroot : c.isRoot with
  | true =>
    rw [addChild_of_root hroot]
    exact h.keep hic
  | false =>
    rcases hw.resolve_cases parent with ⟨ht, hid⟩ | ⟨hbare, hno⟩
    · generalize w.resolve parent = t at ht hid
      subst hid
      have hold : i ∉ t.ids := fun hi => h.not_mem (ht.ids_sublist.subset hi)
      rw [Tree.ids_eq, List.mem_cons, not_or] at hold
      have hgrown : i ∉ (w.grown t c).ids := by
        rw [grown, Tree.ids_node, List.mem_cons, not_or]
        have hsib := Tree.namesDistinct_iff.mp (hw.namesDistinct ht)
        exact ⟨hold.1, Tree.not_mem_idsOf_insertChild h.older hsib hc.names hold.2 hic⟩
      have hgone := (h.replace hw ht hgrown).later (Nat.le_succ w.step)
      rw [addChild_of_among hw.ids ht hroot, withChild]
      dsimp only
      split
      · exact hgone.keep hic
      · exact hgone
    · rw [addChild_of_missing hbare hno hroot]
      exact h.later (Nat.le_succ w.step)

theorem Gone.removeChild (h : w.Gone i) (hw : w.Sound) (parent : NodeId) (name : Text) :
    (w.removeChild parent name).Gone i := by
  rw [Workbench.removeChild]
  rcases hw.resolve_cases parent with ⟨ht, hid⟩ | ⟨-, hno⟩
  · generalize w.resolve parent = t at ht hid
    subst hid
    refine h.replace hw ht fun hi => h.not_mem (ht.ids_sublist.subset ?_)
    rw [Tree.removeChild, Tree.ids_node] at hi
    rw [Tree.ids_eq]
    exact ((List.filter_sublist.flatMap Tree.ids).cons_cons t.id).subset hi
  · rw [replace_of_not_mem hno]
    exact h

theorem Gone.held (h : w.Gone i) {name : Text} {b : Builder S C M} (hb : w.named? name = some b) :
    ∀ t ∈ b.children ++ b.absorbed, i ∉ t.ids := fun t ht =>
  h.missing t ((held_subperm hb).subset (List.mem_append_left _ ht))

theorem Gone.store (h : w.Gone i) (name : Text) {b : Builder S C M}
    (hheld : ∀ t ∈ b.children ++ b.absorbed, i ∉ t.ids) : (w.store name b).Gone i where
  older := h.older
  missing := fun t ht => by
    rcases List.mem_append.mp ((trees_store w name b).subset ht) with ht | ht
    · exact hheld t ht
    · exact h.missing t ((trees_without_sublist w name).subset ht)

theorem Gone.build (h : w.Gone i) (b : Builder S C M) : i ∉ (w.build b).1.ids :=
  Tree.not_mem_ids_copy h.older (.node [] b.toTraits b.children)

theorem Gone.take (h : w.Gone i) {label : Text} {c : Tree S C M} {w' : Workbench S C M}
    (ht : w.take label = (.ok c, w')) : i ∉ c.ids ∧ w'.Gone i := by
  have hall := (take_subperm ht).subset
  obtain ⟨-, rfl⟩ := take_ok ht
  exact ⟨h.missing c (hall List.mem_cons_self), h.older, fun t ht =>
    h.missing t (hall (List.mem_cons_of_mem c ht))⟩

theorem Gone.attach (h : w.Gone i) {c : Tree S C M} (hc : w.InHand c) (hic : i ∉ c.ids) {name : Text}
    {b : Builder S C M} (hb : w.named? name = some b) :
    ((w.attach b c).2.2.store name (w.attach b c).2.1).Gone i := by
  have hheld := h.held hb
  rcases attach_cases w b c with ⟨-, -, ha⟩ | ⟨-, f, ha⟩ <;> rw [ha]
  · have hchildren : i ∉ Tree.idsOf (Tree.insertChild w.step b.children c) := by
      refine Tree.not_mem_idsOf_insertChild h.older (hc.sound.siblings hb) hc.names (fun hi => ?_) hic
      obtain ⟨d, hd, hid⟩ := Tree.mem_idsOf_iff.mp hi
      exact hheld d (List.mem_append_left _ hd) hid
    refine (h.later (Nat.le_succ w.step)).store name fun t ht hi => ?_
    rcases List.mem_append.mp ht with ht | ht
    · exact hchildren (Tree.mem_idsOf_iff.mpr ⟨t, ht, hi⟩)
    · rw [Builder.withChild] at ht
      dsimp only at ht
      split at ht
      · rcases List.mem_append.mp ht with ht | ht
        · exact hheld t (List.mem_append_right _ ht) hi
        · exact hic (List.mem_singleton.mp ht ▸ hi)
      · exact hheld t (List.mem_append_right _ ht) hi
  · exact (h.keep hic).store name hheld

theorem Gone.change (h : w.Gone i) (hw : w.Sound) (name : Text) (change : Change S C M) :
    (w.amend name [change.setting]).2.Gone i := by
  cases hb : w.named? name with
  | none => rwa [amend, hb]
  | some b =>
    rcases change_cases hb change with ⟨b', heq, hchildren, habsorbed, -⟩ | ⟨c, w', hhad, heq⟩ <;>
      rw [heq]
    · exact h.store name (by rw [hchildren, habsorbed]; exact h.held hb)
    · rcases hhad with ⟨n, b', hb', rfl, rfl⟩ | ⟨label, ht⟩
      · exact (h.later (Nat.le_succ w.step)).attach (hw.inHand_build hb') (h.build b') hb
      · obtain ⟨hc, hw'⟩ := h.take ht
        exact hw'.attach (hw.inHand_take ht) hc (by rw [named?, (take_ok ht).2]; exact hb)

theorem Gone.perform (h : w.Gone i) (hw : w.Sound) (call : Call S C M) : (w.perform call).2.Gone i := by
  have hlater : Gone i { w with step := w.step + 1 } := h.later (Nat.le_succ w.step)
  cases call with
  | start name kind => exact h.store name nofun
  | change name change => exact h.change hw name change
  | build name label =>
    rw [Workbench.perform]
    cases w.named? name with
    | none => exact h
    | some b => exact hlater.putAside (h.build b) label
  | clone target label =>
    rw [Workbench.perform]
    cases w.locate target with
    | error f => exact h
    | ok j => exact hlater.putAside (Tree.not_mem_ids_copy h.older _) label
  | register name =>
    cases hb : w.named? name with
    | none =>
      rw [Workbench.perform, hb]
      exact h
    | some b =>
      rw [perform_register hb]
      exact hlater.addChild (hw.inHand_build hb) (h.build b) w.root.id
  | add target label =>
    rw [Workbench.perform]
    cases w.locate target with
    | error f => exact h
    | ok parent =>
      dsimp only
      rcases ht : w.take label with ⟨f | c, w'⟩
      · rw [take_error ht]
        exact h
      · obtain ⟨hc, hw'⟩ := h.take ht
        exact hw'.addChild (hw.inHand_take ht) hc parent
  | remove target name =>
    rw [Workbench.perform]
    cases w.locate target with
    | error f => exact h
    | ok parent => exact h.removeChild hw parent name

theorem Gone.act (h : w.Gone i) (hw : w.Sound) (a : Act S C M) : (w.act a).2.Gone i := by
  cases a with
  | call call => exact h.perform hw call
  | hold label j => exact ⟨h.older, h.missing⟩

/-- With a child all nodes below it are gone. -/
theorem Sound.gone_removeChild (hw : w.Sound) {parent : NodeId} {name : Text} {c u : Tree S C M}
    (hc : (w.resolve parent).child? name = some c) (hu : c.Has u) :
    (w.removeChild parent name).Gone u.id := by
  rw [Workbench.removeChild]
  rcases hw.resolve_cases parent with ⟨ht, hid⟩ | ⟨hbare, -⟩
  · generalize w.resolve parent = t at hc ht hid
    subst hid
    have htu : t.Has u := (Tree.Has.child .top (List.mem_of_find?_eq_some hc)).trans hu
    have hthere : u.id ∈ Tree.idsOf w.trees := ht.ids_sublist.subset htu.id_mem
    have hother := Tree.not_mem_ids_removeChild (hw.ids.sublist ht.ids_sublist) hc hu
    refine ⟨hw.fresh.older u.id hthere, fun v hv hi => ?_⟩
    -- The identity is there once before, and once in the node that is replaced.
    have hcount := (Tree.idsOf_replaceAtAll (t.removeChild name) ht hw.ids).count_eq u.id
    rw [← trees_replace, List.count_append, List.count_append,
      List.count_eq_one_of_mem hw.ids hthere, List.count_eq_zero.mpr hother,
      List.count_eq_one_of_mem (hw.ids.sublist ht.ids_sublist) htu.id_mem] at hcount
    have hgone : (Tree.idsOf (w.replace t.id (t.removeChild name)).trees).count u.id = 0 := by omega
    exact List.count_eq_zero.mp hgone (Tree.mem_idsOf_iff.mpr ⟨v, hv, hi⟩)
  · rw [hbare] at hc
    cases hc

end Workbench

namespace Catalogued

variable {S C M : Type}

theorem run_append_one (options : Options) (acts : List (Act S C M)) (a : Act S C M) :
    run options (acts ++ [a]) = ((run options acts).act a).2 := by
  simp [run]

/-- A node that is gone never comes back. -/
theorem gone_run {options : Options} {acts : List (Act S C M)} {i : NodeId}
    (h : (run options acts).Gone i) (later : List (Act S C M)) :
    (run options (acts ++ later)).Gone i := by
  induction later using List.reverseRecOn with
  | nil => rwa [List.append_nil]
  | append_singleton later a ih =>
    obtain ⟨-, hw, hs⟩ := run_spec options (acts ++ later)
    rw [← List.append_assoc, run_append_one, (agrees_act hs hw a).bench]
    exact ih.act hw a

/-- Whatever is done after a child was removed, no node below it is ever on the workbench again. -/
theorem gone_of_removed {options : Options} {acts : List (Act S C M)} {target : Target} {name : Text}
    {parent : NodeId} {c u : Tree S C M} (hparent : (run options acts).locate target = .ok parent)
    (hc : ((run options acts).resolve parent).child? name = some c) (hu : c.Has u)
    (later : List (Act S C M)) :
    (run options (acts ++ .call (.remove target name) :: later)).Gone u.id := by
  obtain ⟨-, hw, hs⟩ := run_spec options acts
  have hremoved : (run options (acts ++ [.call (.remove target name)])).Gone u.id := by
    rw [run_append_one, (agrees_act hs hw _).bench, Workbench.act, Workbench.perform, hparent]
    exact hw.gone_removeChild hc hu
  rw [List.append_cons]
  exact gone_run hremoved later

end Catalogued

end CommandTree
