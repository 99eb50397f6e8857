import CommandTree.Proofs.Derivation
import CommandTree.Tree.Address

/-!
Trees as a reader of them needs them: an induction over the children of a node, all nodes of a tree
as a list, and trees in which siblings have different names. In those a name leads to one child.
-/

namespace CommandTree

namespace Tree

variable {S C M : Type}

/-- What holds of a node as soon as it holds of its children holds of every tree. -/
@[elab_as_elim, induction_eliminator]
theorem induct {motive : Tree S C M → Prop}
    (node : ∀ id traits cs, (∀ c ∈ cs, motive c) → motive (.node id traits cs))
    (t : Tree S C M) : motive t :=
  match t with
  | .node id traits cs => node id traits cs fun c _ => induct node c

@[simp] theorem children_node (id : NodeId) (traits : Traits S C M) (cs : List (Tree S C M)) :
    (node id traits cs).children = cs := rfl

@[simp] theorem traits_node (id : NodeId) (traits : Traits S C M) (cs : List (Tree S C M)) :
    (node id traits cs).traits = traits := rfl

@[simp] theorem id_node (id : NodeId) (traits : Traits S C M) (cs : List (Tree S C M)) :
    (node id traits cs).id = id := rfl

theorem Has.trans {t u v : Tree S C M} (h : t.Has u) (h' : u.Has v) : t.Has v := by
  induction h' with
  | top => exact h
  | child _ hc ih => exact ih.child hc

/-- A tree has itself, and what its children have. -/
theorem has_iff {t u : Tree S C M} : t.Has u ↔ u = t ∨ ∃ c ∈ t.children, c.Has u := by
  constructor
  · intro h
    induction h with
    | top => exact .inl rfl
    | child h hc ih =>
      rcases ih with rfl | ⟨c, hct, hcu⟩
      · exact .inr ⟨_, hc, .top⟩
      · exact .inr ⟨c, hct, hcu.child hc⟩
  · rintro (rfl | ⟨c, hc, h⟩)
    · exact .top
    · exact (Has.child .top hc).trans h

mutual
theorem map_snd_outline (m n : Nat) :
    ∀ t : Tree S C M, (t.outline m).map Prod.snd = (t.outline n).map Prod.snd
  | .node id traits cs => by simp [outline, map_snd_outlineAll (m + 1) (n + 1) cs]

theorem map_snd_outlineAll (m n : Nat) :
    ∀ cs : List (Tree S C M), (outlineAll m cs).map Prod.snd = (outlineAll n cs).map Prod.snd
  | [] => rfl
  | c :: cs => by simp [outlineAll, map_snd_outline m n c, map_snd_outlineAll m n cs]
end

/-- All nodes of a tree: its own, and those of its children. -/
theorem subtrees_node (id : NodeId) (traits : Traits S C M) (cs : List (Tree S C M)) :
    (node id traits cs).subtrees = .node id traits cs :: cs.flatMap subtrees := by
  have hall : ∀ (n : Nat) (cs : List (Tree S C M)),
      (outlineAll n cs).map Prod.snd = cs.flatMap subtrees := by
    intro n cs
    induction cs with
    | nil => rfl
    | cons c cs ih => simp [outlineAll, ih, subtrees, map_snd_outline n 0 c]
  rw [subtrees, outline, List.map_cons, hall]

theorem mem_subtrees_iff {t u : Tree S C M} : u ∈ t.subtrees ↔ t.Has u := by
  induction t with
  | node id traits cs ih =>
    rw [subtrees_node, has_iff, List.mem_cons, List.mem_flatMap]
    refine or_congr Iff.rfl (exists_congr fun c => ?_)
    exact and_congr_right fun hc => ih c hc

/-- No two siblings in the tree have the same name. -/
def NamesDistinct (t : Tree S C M) : Prop := ∀ u, t.Has u → (u.children.map name).Nodup

/-- Trees that can be the children of one node. -/
structure Siblings (cs : List (Tree S C M)) : Prop where
  nodup : (cs.map name).Nodup
  below : ∀ c ∈ cs, c.NamesDistinct

theorem namesDistinct_iff {t : Tree S C M} : t.NamesDistinct ↔ Siblings t.children := by
  constructor
  · exact fun h => ⟨h t .top, fun c hc u hu => h u ((Has.child .top hc).trans hu)⟩
  · rintro ⟨ht, hcs⟩ u hu
    rcases has_iff.mp hu with rfl | ⟨c, hc, hcu⟩
    · exact ht
    · exact hcs c hc u hcu

theorem NamesDistinct.nodup {t : Tree S C M} (h : t.NamesDistinct) :
    (t.children.map name).Nodup := (namesDistinct_iff.mp h).nodup

theorem NamesDistinct.child {t c : Tree S C M} (h : t.NamesDistinct) (hc : c ∈ t.children) :
    c.NamesDistinct := (namesDistinct_iff.mp h).below c hc

instance decidableNamesDistinct (t : Tree S C M) : Decidable t.NamesDistinct :=
  decidable_of_iff (∀ u ∈ t.subtrees, (u.children.map name).Nodup)
    (forall_congr' fun _ => imp_congr_left mem_subtrees_iff)

/-- Where no two elements have the same key, a search by key finds the one that has it. -/
theorem find?_key_eq_some_iff {α κ : Type} [DecidableEq κ] {key : α → κ} {k : κ} {a : α}
    {as : List α} (h : (as.map key).Nodup) :
    (as.find? fun b => key b = k) = some a ↔ a ∈ as ∧ key a = k := by
  induction as with
  | nil => simp
  | cons b bs ih =>
    obtain ⟨hb, hbs⟩ := List.nodup_cons.mp h
    by_cases hk : key b = k
    · have hrest : a ∈ bs → key a ≠ k := by
        rintro ha rfl
        exact hb (hk ▸ List.mem_map_of_mem ha)
      simp only [List.find?_cons, hk, decide_true, Option.some.injEq, List.mem_cons]
      constructor
      · rintro rfl
        exact ⟨.inl rfl, hk⟩
      · rintro ⟨rfl | ha, hkey⟩
        · rfl
        · exact absurd hkey (hrest ha)
    · simp only [List.find?_cons, hk, decide_false, ih hbs, List.mem_cons]
      constructor
      · exact fun ⟨ha, hkey⟩ => ⟨.inr ha, hkey⟩
      · rintro ⟨rfl | ha, hkey⟩
        · exact absurd hkey hk
        · exact ⟨ha, hkey⟩

/-- Among siblings with different names, a name leads to the child that has it. -/
theorem child?_eq_some_iff {t c : Tree S C M} {name : Text}
    (h : (t.children.map Tree.name).Nodup) :
    t.child? name = some c ↔ c ∈ t.children ∧ c.name = name :=
  find?_key_eq_some_iff h

theorem child?_eq_none_iff {t : Tree S C M} {name : Text} :
    t.child? name = none ↔ ∀ c ∈ t.children, c.name ≠ name := by
  simp [child?, List.find?_eq_none]

/-- Names lead to nodes of the tree. -/
theorem has_of_descend {t u : Tree S C M} {path : List Text} (h : t.descend? path = some u) :
    t.Has u := by
  induction path generalizing t with
  | nil =>
    obtain rfl := Option.some.inj h
    exact .top
  | cons name rest ih =>
    rw [descend?] at h
    cases hc : t.child? name with
    | none => simp [hc] at h
    | some c =>
      rw [hc] at h
      exact (Has.child .top (List.mem_of_find?_eq_some hc)).trans (ih h)

end Tree

namespace Grammar

variable {S C M : Type}

/-- No two siblings of the grammar have the same name. -/
def NamesDistinct (g : Grammar S C M) : Prop :=
  g.root.NamesDistinct ∧ ∀ id, (g.resolve id).NamesDistinct

/-- A node that a parse can come to: the root, a child of such a node, or where one redirects. -/
inductive Reachable (g : Grammar S C M) : Tree S C M → Prop
  | root : Reachable g g.root
  | child {t c : Tree S C M} (h : Reachable g t) (hc : c ∈ t.children) : Reachable g c
  | redirect {t : Tree S C M} {target : NodeId} (h : Reachable g t)
      (leads : t.redirect = some target) : Reachable g (g.resolve target)

/-- Where nothing below the root redirects, a parse stays below it. -/
theorem Reachable.has_of_direct {g : Grammar S C M} (direct : ∀ t, g.root.Has t → t.redirect = none)
    {t : Tree S C M} (h : g.Reachable t) : g.root.Has t := by
  induction h with
  | root => exact .top
  | child _ hc ih => exact ih.child hc
  | redirect _ leads ih => exact absurd ((direct _ ih).symm.trans leads) nofun

/-- Where only one identity means anything, and that is the root, all nodes are below the root, or there
are none. -/
theorem HasNode.cases_of_root {g : Grammar S C M} {t : Tree S C M} (h : g.HasNode t) (home : NodeId)
    (hresolve : ∀ id, g.resolve id = if id = home then g.root else .bare id) :
    t ∈ g.root.subtrees ∨ t = .bare t.id := by
  have hbare : ∀ (id : NodeId) (u : Tree S C M), (Tree.bare id : Tree S C M).Has u →
      u = .bare id := by
    intro id u hu
    induction hu with
    | top => rfl
    | child _ hc ih => simp [ih, Tree.bare, Tree.children] at hc
  rcases h with h | ⟨id, h⟩
  · exact .inl (Tree.mem_subtrees_iff.mpr h)
  · rw [hresolve] at h
    split at h
    · exact .inl (Tree.mem_subtrees_iff.mpr h)
    · obtain rfl := hbare id t h
      exact .inr rfl

/-- The identity of a node finds the node. -/
def Coherent (g : Grammar S C M) : Prop := ∀ t, g.Reachable t → g.resolve t.id = t

theorem Reachable.hasNode {g : Grammar S C M} {t : Tree S C M} (h : g.Reachable t) :
    g.HasNode t := by
  induction h with
  | root => exact .inl .top
  | child _ hc ih => exact ih.child hc
  | redirect => exact .inr ⟨_, .top⟩

theorem Reachable.nodup {g : Grammar S C M} {t : Tree S C M} (h : g.Reachable t)
    (hg : g.NamesDistinct) : (t.children.map Tree.name).Nodup := by
  rcases h.hasNode with h | ⟨id, h⟩
  · exact hg.1 t h
  · exact hg.2 id t h

end Grammar

end CommandTree
