import CommandTree.Proofs.Redirects
import CommandTree.Proofs.Removal

/-!
The names that lead to a node, and the node that names lead to. The way to a node is found by trying one
child after another; the node at the end of a way is found by the indexes, name by name. Main statement:
whatever was done, each undoes the other on the nodes of the tree, and no way leads to any other node,
neither to one that stands beside the tree nor, ever again, to one that was removed.
-/

namespace CommandTree

namespace Tree

variable {S C M : Type}

mutual
/-- Looks for a node with one way for all attempts: a name is added for each child that is tried, and taken
away again where the node is not below it. -/
def search (i : NodeId) (way : List Text) : Tree S C M → Bool × List Text
  | node j _ cs => if j = i then (true, way) else searchAmong i way cs

def searchAmong (i : NodeId) (way : List Text) : List (Tree S C M) → Bool × List Text
  | [] => (false, way)
  | c :: cs =>
    match search i (way ++ [c.name]) c with
    | (true, way) => (true, way)
    | (false, way) => searchAmong i way.dropLast cs
end

/-- The search adds to the way the names that lead to the node; where it fails it leaves the way as it
was. -/
theorem search_eq (i : NodeId) (way : List Text) (t : Tree S C M) :
    t.search i way = ((t.pathTo? i).isSome, way ++ (t.pathTo? i).getD []) := by
  induction t generalizing way with
  | node j traits cs ih =>
    have hall : ∀ ds ⊆ cs, ∀ way, searchAmong i way ds =
        ((pathAmong? i ds).isSome, way ++ (pathAmong? i ds).getD []) := by
      intro ds hds way
      induction ds with
      | nil => simp [searchAmong, pathAmong?]
      | cons d ds ihds =>
        obtain ⟨hd, hds⟩ := List.cons_subset.mp hds
        rw [searchAmong, pathAmong?, ih d hd]
        cases d.pathTo? i with
        | some names => simp
        | none => simpa using ihds hds
    rw [search, pathTo?]
    split
    · simp
    · exact hall cs (List.Subset.refl cs) way

theorem pathAmong?_eq (i : NodeId) (cs : List (Tree S C M)) :
    pathAmong? i cs = cs.findSome? fun c => (c.pathTo? i).map (c.name :: ·) := by
  induction cs with
  | nil => rfl
  | cons c cs ih =>
    rw [pathAmong?, List.findSome?_cons, ih]
    cases c.pathTo? i <;> rfl

/-- A tree has a way to each of its nodes, and to no other. -/
theorem pathTo?_eq_none_iff {i : NodeId} {t : Tree S C M} : t.pathTo? i = none ↔ i ∉ t.ids := by
  induction t with
  | node j traits cs ih =>
    have hbelow : pathAmong? i cs = none ↔ i ∉ idsOf cs := by
      simp only [pathAmong?_eq, List.findSome?_eq_none_iff, Option.map_eq_none_iff, mem_idsOf_iff,
        not_exists, not_and]
      exact forall₂_congr ih
    rw [pathTo?, ids_node, List.mem_cons, not_or, ← hbelow, eq_comm (a := i)]
    split <;> simp [*]

/-- The way among siblings is that below the one that has the node. -/
theorem pathAmong?_of_mem {i : NodeId} {c : Tree S C M} {cs : List (Tree S C M)} {names : List Text}
    (hids : (idsOf cs).Nodup) (hc : c ∈ cs) (hnames : c.pathTo? i = some names) :
    pathAmong? i cs = some (c.name :: names) := by
  induction cs with
  | nil => exact absurd hc List.not_mem_nil
  | cons d ds ih =>
    rw [idsOf_cons] at hids
    obtain ⟨-, hds, hdisjoint⟩ := List.nodup_append.mp hids
    rw [pathAmong?]
    rcases List.mem_cons.mp hc with rfl | hc
    · rw [hnames]
    · have hi : i ∈ c.ids := by
        by_contra hi
        simp [pathTo?_eq_none_iff.mpr hi] at hnames
      have hother : d.pathTo? i = none := pathTo?_eq_none_iff.mpr fun hid =>
        hdisjoint i hid i (mem_idsOf_iff.mpr ⟨c, hc, hi⟩) rfl
      rw [hother]
      exact ih hds hc

theorem descend?_append (t : Tree S C M) (way rest : List Text) :
    t.descend? (way ++ rest) = (t.descend? way).bind fun u => u.descend? rest := by
  induction way generalizing t with
  | nil => rfl
  | cons name way ih =>
    rw [List.cons_append, descend?, descend?]
    cases t.child? name with
    | none => rfl
    | some c => exact ih c

/-- The way to a node that names lead to is these names. -/
theorem pathTo?_of_descend {t u : Tree S C M} {names : List Text} (hids : t.ids.Nodup)
    (h : t.descend? names = some u) : t.pathTo? u.id = some names := by
  induction names generalizing t with
  | nil =>
    obtain rfl := Option.some.inj h
    cases t
    rw [pathTo?, id_node, if_pos rfl]
  | cons name rest ih =>
    rw [descend?] at h
    cases hc : t.child? name with
    | none => simp [hc] at h
    | some c =>
      rw [hc] at h
      obtain rfl : c.name = name := by simpa using List.find?_some hc
      have hmem : c ∈ t.children := List.mem_of_find?_eq_some hc
      cases t with
      | node i traits cs =>
        rw [ids_node] at hids
        obtain ⟨htop, hcs⟩ := List.nodup_cons.mp hids
        have hne : i ≠ u.id := fun heq => htop (heq ▸ Among.id_mem ⟨c, hmem, has_of_descend h⟩)
        rw [pathTo?, if_neg hne]
        exact pathAmong?_of_mem hcs hmem (ih (hcs.sublist (ids_sublist_idsOf hmem)) h)

end Tree

namespace Catalogued

variable {S C M : Type} {s : Catalogued S C M}

/-- Goes from a node where names lead, by the indexes. -/
def walk (s : Catalogued S C M) (i : NodeId) : List Text → Option NodeId
  | [] => some i
  | name :: rest =>
    match (s.nodes i).find? name with
    | none => none
    | some j => s.walk j rest

/-- The node of the tree that names lead to. -/
def findNode (s : Catalogued S C M) (names : List Text) : Option (Tree S C M) :=
  (s.walk s.root.id names).map s.resolve

theorem walk_eq (hs : s.Right) {t : Tree S C M} (ht : Tree.Among s.trees t) (names : List Text) :
    s.walk t.id names = (t.descend? names).map Tree.id := by
  induction names generalizing t with
  | nil => rfl
  | cons name rest ih =>
    rw [walk, Tree.descend?, (hs.among ht t .top).find?_eq, ← Tree.child?]
    cases hc : t.child? name with
    | none => rfl
    | some c =>
      obtain ⟨u, hu, hut⟩ := ht
      exact ih ⟨u, hu, hut.child (List.mem_of_find?_eq_some hc)⟩

theorem findNode_eq (hs : s.Right) (hw : s.Sound) (names : List Text) :
    s.findNode names = s.root.descend? names := by
  rw [findNode, walk_eq hs ⟨s.root, List.mem_cons_self, .top⟩]
  cases hu : s.root.descend? names with
  | none => rfl
  | some u =>
    exact congrArg some (Workbench.resolve_of_among hw.ids
      ⟨s.root, List.mem_cons_self, Tree.has_of_descend hu⟩)

/-- Names and the nodes of the tree lead to each other, and no names lead anywhere else. -/
structure Addresses (s : Catalogued S C M) : Prop where
  searched : ∀ i, s.root.search i [] = (decide (i ∈ s.root.ids), s.path i)
  walked : ∀ names, s.findNode names = s.root.descend? names
  found : ∀ t, s.root.Has t → s.findNode (s.path t.id) = some t
  back : ∀ names t, s.findNode names = some t → s.root.Has t ∧ s.path t.id = names
  outside : ∀ i ∉ s.root.ids, s.path i = []
  beside : ∀ t, Tree.Among s.trees.tail t → s.path t.id = []

theorem addresses (hs : s.Right) (hw : s.Sound) : s.Addresses := by
  have hids : (s.root.ids ++ Tree.idsOf s.trees.tail).Nodup := hw.ids
  obtain ⟨hroot, -, hdisjoint⟩ := List.nodup_append.mp hids
  have hnames : s.root.NamesDistinct := hw.names s.root List.mem_cons_self
  have houtside : ∀ i ∉ s.root.ids, s.path i = [] := fun i hi => by
    rw [Workbench.path, Tree.pathTo?_eq_none_iff.mpr hi]
    rfl
  refine ⟨fun i => ?_, findNode_eq hs hw, fun t ht => ?_, fun names t ht => ?_, houtside, fun t ht => ?_⟩
  · have hfound : (s.root.pathTo? i).isSome = decide (i ∈ s.root.ids) := by
      rw [Bool.eq_iff_iff, decide_eq_true_iff, ← Option.ne_none_iff_isSome, Ne,
        Tree.pathTo?_eq_none_iff, not_not]
    rw [Tree.search_eq, hfound]
    rfl
  · obtain ⟨names, hway⟩ := (Tree.has_iff_descend hnames).mp ht
    rw [Workbench.path, Tree.pathTo?_of_descend hroot hway, Option.getD_some, findNode_eq hs hw, hway]
  · rw [findNode_eq hs hw] at ht
    refine ⟨Tree.has_of_descend ht, ?_⟩
    rw [Workbench.path, Tree.pathTo?_of_descend hroot ht, Option.getD_some]
  · exact houtside t.id fun hi => hdisjoint t.id hi t.id ht.id_mem rfl

/-- Whatever was done, the way to each node of the tree leads to it, and where names lead they are the way.
Every other node has no way: those that are being built, that were put aside or that were merged away, and
whatever is done later also all that is below a child when it is removed. -/
theorem paths_run (options : Options) (acts : List (Act S C M)) :
    (run options acts).Addresses ∧
    ∀ target name parent c u, (run options acts).locate target = .ok parent →
      ((run options acts).resolve parent).child? name = some c → c.Has u →
      ∀ later, (run options (acts ++ .call (.remove target name) :: later)).path u.id = [] := by
  obtain ⟨-, hw, hs⟩ := run_spec options acts
  refine ⟨addresses hs hw, fun target name parent c u hparent hc hu later => ?_⟩
  have hgone := gone_of_removed hparent hc hu later
  obtain ⟨-, hw', hs'⟩ := run_spec options (acts ++ .call (.remove target name) :: later)
  exact (addresses hs' hw').outside u.id (hgone.missing _ List.mem_cons_self)

/-- What was merged into `say` stands beside the tree, and `hello` had a way until it was removed. -/
theorem paths_run_chatter :
    (∃ t, (run ⟨true, .standard⟩ chatter).findNode [text "say", text "loudly"] = some t ∧
      (run ⟨true, .standard⟩ chatter).path t.id = [text "say", text "loudly"]) ∧
    (∃ t, t.name = text "say" ∧ Tree.Among (run ⟨true, .standard⟩ chatter).trees.tail t ∧
      (run ⟨true, .standard⟩ chatter).path t.id = []) ∧
    ∃ u, (run ⟨true, .standard⟩ (chatter.take 11)).findNode [text "say", text "hello"] = some u ∧
      (run ⟨true, .standard⟩ (chatter.take 11)).path u.id = [text "say", text "hello"] ∧
      (run ⟨true, .standard⟩ chatter).path u.id = [] := by
  obtain ⟨hnow, -⟩ := paths_run ⟨true, .standard⟩ chatter
  obtain ⟨hbefore, hremoved⟩ := paths_run ⟨true, .standard⟩ (chatter.take 11)
  refine ⟨?_, ?_, ?_⟩
  · have hsome : ((run ⟨true, .standard⟩ chatter).root.descend?
        [text "say", text "loudly"]).isSome := by decide +kernel
    obtain ⟨t, ht⟩ := Option.isSome_iff_exists.mp hsome
    rw [← hnow.walked] at ht
    exact ⟨t, ht, (hnow.back _ t ht).2⟩
  · have hany : ((run ⟨true, .standard⟩ chatter).loose.any fun t => t.name = text "say") = true := by
      decide +kernel
    obtain ⟨t, ht, hname⟩ := List.any_eq_true.mp hany
    have hbeside : Tree.Among (run ⟨true, .standard⟩ chatter).trees.tail t :=
      ⟨t, List.mem_append_left _ ht, .top⟩
    exact ⟨t, of_decide_eq_true hname, hbeside, hnow.beside t hbeside⟩
  · have hsay : ((run ⟨true, .standard⟩ (chatter.take 11)).root.descend? [text "say"]).isSome := by
      decide +kernel
    have hhello : ((run ⟨true, .standard⟩ (chatter.take 11)).root.descend?
        [text "say", text "hello"]).isSome := by decide +kernel
    obtain ⟨p, hp⟩ := Option.isSome_iff_exists.mp hsay
    obtain ⟨u, hu⟩ := Option.isSome_iff_exists.mp hhello
    have hlocate : (run ⟨true, .standard⟩ (chatter.take 11)).locate (.path [text "say"]) =
        .ok p.id := by rw [Workbench.locate, Workbench.locate?, hp]; rfl
    have hresolve : (run ⟨true, .standard⟩ (chatter.take 11)).resolve p.id = p :=
      Workbench.resolve_of_among (run_spec _ _).2.1.ids
        ⟨_, List.mem_cons_self, Tree.has_of_descend hp⟩
    have hchild : p.child? (text "hello") = some u := by
      rw [← List.singleton_append, Tree.descend?_append, hp, Option.bind_some, Tree.descend?] at hu
      cases hc : p.child? (text "hello") with
      | none => simp [hc] at hu
      | some c => rwa [hc] at hu
    rw [← hbefore.walked] at hu
    exact ⟨u, hu, (hbefore.back _ u hu).2,
      hremoved (.path [text "say"]) (text "hello") p.id u u hlocate (hresolve.symm ▸ hchild) .top
        [.call (.clone (.path []) (text "copy"))]⟩

end Catalogued

end CommandTree
