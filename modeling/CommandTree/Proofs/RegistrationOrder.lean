import CommandTree.Proofs.Registration
import CommandTree.Proofs.Reordering

/-!
Registering two commands of new names in either order. The nodes get other identities, and stand below
the root in another order. Main statement: that is the only difference between the two grammars.
-/

namespace CommandTree

variable {S C M : Type} {ρ : NodeId → NodeId}

namespace NodeId

/-- Exchanges the identities that are given out at two steps. -/
def exchange (m n : Nat) : NodeId → NodeId
  | [] => []
  | k :: i => Equiv.swap m n k :: i

theorem exchange_exchange (m n : Nat) (i : NodeId) : exchange m n (exchange m n i) = i := by
  cases i <;> simp [exchange]

theorem exchange_injective (m n : Nat) : (exchange m n).Injective :=
  Function.LeftInverse.injective (exchange_exchange m n)

/-- What was given out before stays as it is. -/
theorem exchange_of_before {m n : Nat} {i : NodeId} (hm : Before m i) (hn : Before n i) :
    exchange m n i = i := by
  cases i with
  | nil => rfl
  | cons k i =>
    have hkm : k ≠ m := Nat.ne_of_lt (hm k rfl)
    have hkn : k ≠ n := Nat.ne_of_lt (hn k rfl)
    rw [exchange, Equiv.swap_apply_of_ne_of_ne hkm hkn]

end NodeId

namespace Tree

theorem rename_traits_of_leadsInto {t : Tree S C M} (h : t.LeadsInto fun i => ρ i = i) :
    t.traits.rename ρ = t.traits := by
  have hredirect : t.traits.redirect.map ρ = t.traits.redirect := by
    cases hr : t.traits.redirect with
    | none => rfl
    | some i => exact congrArg some (h t .top i hr)
  rw [Traits.rename, hredirect]

/-- A tree whose identities, and those it redirects to, stay as they are. -/
theorem shuffled_self {t : Tree S C M} (hids : ∀ i ∈ t.ids, ρ i = i)
    (hlead : t.LeadsInto fun i => ρ i = i) : t.Shuffled ρ t := by
  induction t with
  | node i traits cs ih =>
    obtain ⟨-, hbelow⟩ := leadsInto_iff.mp hlead
    have htraits : traits.rename ρ = traits := rename_traits_of_leadsInto hlead
    rw [ids_node] at hids
    obtain ⟨hi, hcs⟩ := List.forall_mem_cons.mp hids
    have hchildren : List.Forall₂ (Shuffled ρ) cs cs := List.forall₂_same.mpr fun c hc =>
      ih c hc (fun j hj => hcs j (mem_idsOf_iff.mpr ⟨c, hc, hj⟩)) (hbelow c hc)
    have hnode := Shuffled.node i traits hchildren (.refl cs) rfl
    rwa [hi, htraits] at hnode

/-- Copies made at two steps whose identities are exchanged. -/
theorem shuffled_copy {m n : Nat} {t : Tree S C M} (hstep : ∀ i, ρ (m :: i) = n :: i)
    (hlead : (t.copy m).LeadsInto fun i => ρ i = i) : (t.copy m).Shuffled ρ (t.copy n) := by
  induction t with
  | node i traits cs ih =>
    obtain ⟨-, hbelow⟩ := leadsInto_iff.mp hlead
    have htraits : traits.rename ρ = traits := rename_traits_of_leadsInto hlead
    rw [copy, children_node, copyAll_eq_map] at hbelow
    have hchildren : List.Forall₂ (Shuffled ρ) (cs.map (copy m)) (cs.map (copy n)) := by
      rw [List.forall₂_map_left_iff, List.forall₂_map_right_iff]
      exact List.forall₂_same.mpr fun c hc => ih c hc (hbelow _ (List.mem_map_of_mem hc))
    have hnode := Shuffled.node (m :: i) traits hchildren (.refl _) rfl
    rw [hstep, htraits] at hnode
    rw [copy, copy, copyAll_eq_map, copyAll_eq_map]
    exact hnode

/-- Corresponding trees have corresponding nodes. -/
theorem Shuffled.has {t t' u : Tree S C M} (h : t.Shuffled ρ t') (hu : t.Has u) :
    ∃ u', t'.Has u' ∧ u.Shuffled ρ u' := by
  induction hu with
  | top => exact ⟨t', .top, h⟩
  | child _ hc ih =>
    obtain ⟨v, hv, huv⟩ := ih
    obtain ⟨d, hd, hcd⟩ := huv.children.exists_right hc
    exact ⟨d, hv.child hd, hcd⟩

theorem Shuffled.has_left {t t' u' : Tree S C M} (h : t.Shuffled ρ t') (hu : t'.Has u') :
    ∃ u, t.Has u ∧ u.Shuffled ρ u' := by
  induction hu with
  | top => exact ⟨t, .top, h⟩
  | child _ hc ih =>
    obtain ⟨v, hv, hvu⟩ := ih
    obtain ⟨c, hcv, hcd⟩ := hvu.children.exists_left hc
    exact ⟨c, hv.child hcv, hcd⟩

end Tree

namespace Workbench

variable {w w' : Workbench S C M}

/-- Every tree of one workbench corresponds to one of the other. -/
structure Shuffled (ρ : NodeId → NodeId) (w w' : Workbench S C M) : Prop where
  root : w.root.Shuffled ρ w'.root
  right : ∀ t ∈ w.trees, ∃ t' ∈ w'.trees, t.Shuffled ρ t'
  left : ∀ t' ∈ w'.trees, ∃ t ∈ w.trees, t.Shuffled ρ t'

/-- Then corresponding identities lead to corresponding nodes. -/
theorem Shuffled.grammar (h : w.Shuffled ρ w') (hw : w.Sound) (hw' : w'.Sound)
    (hρ : ρ.Injective) : w.grammar.Shuffled ρ w'.grammar where
  root := h.root
  resolve i := by
    change (w.resolve i).Shuffled ρ (w'.resolve (ρ i))
    rcases hw.resolve_cases i with ⟨⟨t, ht, hti⟩, hid⟩ | ⟨hbare, hno⟩
    · obtain ⟨t', ht', htt'⟩ := h.right t ht
      obtain ⟨u', hu', hiu'⟩ := htt'.has hti
      have hfound := resolve_of_among hw'.ids ⟨t', ht', hu'⟩
      rw [hiu'.id_eq, hid] at hfound
      rwa [hfound]
    · rcases hw'.resolve_cases (ρ i) with ⟨⟨t', ht', hti'⟩, hid'⟩ | ⟨hbare', -⟩
      · obtain ⟨t, ht, htt'⟩ := h.left t' ht'
        obtain ⟨u, hu, hui'⟩ := htt'.has_left hti'
        have hui : u.id = i := hρ (hui'.id_eq.symm.trans hid')
        exact absurd (hui ▸ Tree.Among.id_mem ⟨t, ht, hu⟩) hno
      · rw [hbare, hbare']
        exact .node i (.ofKind .root) .nil .nil rfl

section

variable {options : Options} {calls : List (Call S C M)} {name₁ name₂ word₁ word₂ : Text}
  {b₁ b₂ : Builder S C M}

/-- Registering two commands of new names: both are below the root, and nothing else changes. -/
theorem run_register_two (hw : w = run options calls) (hb₁ : w.named? name₁ = some b₁)
    (hb₂ : w.named? name₂ = some b₂) (hk₁ : b₁.kind = .literal word₁) (hk₂ : b₂.kind = .literal word₂)
    (hnew₁ : w.root.child? word₁ = none) (hnew₂ : w.root.child? word₂ = none)
    (hne : word₁ ≠ word₂) :
    run options (calls ++ [.register name₁, .register name₂]) =
      (w.planted (b₁.build w.step)).planted (b₂.build (w.step + 2)) := by
  have hfirst := run_register hw hb₁ hk₁ hnew₁
  have hnew : (w.planted (b₁.build w.step)).root.child? word₂ = none := by
    rw [Tree.child?_eq_none_iff] at hnew₂ ⊢
    intro c hc
    rcases List.mem_append.mp hc with hc | hc
    · exact hnew₂ c hc
    · obtain rfl := List.mem_singleton.mp hc
      have hname : (b₁.build w.step).name = word₁ := name_build (w := w) hk₁
      rwa [hname]
  have hsecond := run_register hfirst.symm hb₂ hk₂ hnew
  rwa [List.append_assoc] at hsecond

/-- In whatever order two commands of new names are registered, the workbenches differ in the order of
the two, and in their identities, only. -/
theorem register_shuffled (hw : w = run options calls) (hb₁ : w.named? name₁ = some b₁)
    (hb₂ : w.named? name₂ = some b₂) (hk₁ : b₁.kind = .literal word₁) (hk₂ : b₂.kind = .literal word₂)
    (hnew₁ : w.root.child? word₁ = none) (hnew₂ : w.root.child? word₂ = none)
    (hne : word₁ ≠ word₂) :
    (run options (calls ++ [.register name₁, .register name₂])).Shuffled
      (.exchange w.step (w.step + 2))
      (run options (calls ++ [.register name₂, .register name₁])) := by
  have hsound : w.Sound := hw ▸ sound_run options calls
  have hlead : w.LeadsInto (NodeId.Before w.step) := hw ▸ leadsInto_run options calls
  rw [run_register_two hw hb₁ hb₂ hk₁ hk₂ hnew₁ hnew₂ hne,
    run_register_two hw hb₂ hb₁ hk₂ hk₁ hnew₂ hnew₁ hne.symm]
  generalize hρ : NodeId.exchange w.step (w.step + 2) = ρ
  have hfixed : ∀ i, NodeId.Before w.step i → ρ i = i := fun i hi =>
    hρ ▸ NodeId.exchange_of_before hi fun n hn => Nat.lt_add_right 2 (hi n hn)
  have hself : ∀ t, Tree.Among w.trees t → t.Shuffled ρ t := by
    rintro t ⟨u, hu, hut⟩
    refine Tree.shuffled_self (fun i hi => hfixed i (hsound.fresh.older i ?_))
      (((hlead.trees u hu).of_has hut).mono hfixed)
    exact Tree.mem_idsOf_iff.mpr ⟨u, hu, hut.ids_sublist.subset hi⟩
  have hcopy₁ : (b₁.build w.step).Shuffled ρ (b₁.build (w.step + 2)) :=
    Tree.shuffled_copy (t := .node [] b₁.toTraits b₁.children)
      (fun i => by rw [← hρ, NodeId.exchange, Equiv.swap_apply_left])
      (((hlead.later w.step).build hb₁).mono hfixed)
  have hcopy₂ : (b₂.build (w.step + 2)).Shuffled ρ (b₂.build w.step) :=
    Tree.shuffled_copy (t := .node [] b₂.toTraits b₂.children)
      (fun i => by rw [← hρ, NodeId.exchange, Equiv.swap_apply_right])
      (((hlead.later (w.step + 2)).build hb₂).mono hfixed)
  have hliteral : ∀ {b : Builder S C M} {word : Text}, b.kind = .literal word →
      ∀ step, (b.build step).isArgument = false := by
    intro b word hk step
    change b.kind.isArgument = false
    rw [hk]
    rfl
  have hroot : w.root ∈ w.trees := List.mem_cons_self
  -- The old children stand first in both trees; only the two new ones change places.
  have hchildren : List.Forall₂ (Tree.Shuffled ρ)
      (w.root.children ++ [b₁.build w.step] ++ [b₂.build (w.step + 2)])
      (w.root.children ++ [b₁.build (w.step + 2)] ++ [b₂.build w.step]) := by
    have hold : List.Forall₂ (Tree.Shuffled ρ) w.root.children w.root.children :=
      List.forall₂_same.mpr fun c hc => hself c ⟨w.root, hroot, .child .top hc⟩
    exact List.rel_append (List.rel_append hold (.cons hcopy₁ .nil)) (.cons hcopy₂ .nil)
  have horder : (w.root.children ++ [b₁.build (w.step + 2)] ++ [b₂.build w.step]).Perm
      (w.root.children ++ [b₂.build w.step] ++ [b₁.build (w.step + 2)]) := by
    rw [List.append_assoc, List.append_assoc]
    exact (List.Perm.swap ..).append_left _
  have hnode := Tree.Shuffled.node w.root.id w.root.traits hchildren horder
    (by simp [hliteral hk₁, hliteral hk₂])
  rw [hfixed _ (hsound.fresh.older _ (Tree.Among.id_mem ⟨w.root, hroot, .top⟩)),
    Tree.rename_traits_of_leadsInto ((hlead.trees w.root hroot).mono hfixed)] at hnode
  refine ⟨hnode, fun t ht => ?_, fun t ht => ?_⟩
  all_goals
    rcases List.mem_cons.mp ht with rfl | ht
    · exact ⟨_, List.mem_cons_self, hnode⟩
    · exact ⟨t, List.mem_cons_of_mem _ ht, hself t ⟨t, List.mem_cons_of_mem _ ht, .top⟩⟩

/-- So the grammars differ in the order of the two commands, and in identities, only. -/
theorem register_order (hw : w = run options calls) (hb₁ : w.named? name₁ = some b₁)
    (hb₂ : w.named? name₂ = some b₂) (hk₁ : b₁.kind = .literal word₁) (hk₂ : b₂.kind = .literal word₂)
    (hnew₁ : w.root.child? word₁ = none) (hnew₂ : w.root.child? word₂ = none)
    (hne : word₁ ≠ word₂) :
    (run options (calls ++ [.register name₁, .register name₂])).grammar.Shuffled
      (.exchange w.step (w.step + 2))
      (run options (calls ++ [.register name₂, .register name₁])).grammar :=
  (register_shuffled hw hb₁ hb₂ hk₁ hk₂ hnew₁ hnew₂ hne).grammar (sound_run ..) (sound_run ..)
    (NodeId.exchange_injective ..)

end

end Workbench

end CommandTree
