import CommandTree.Proofs.Failures
import CommandTree.Proofs.Indexing

/-!
A workbench all of whose nodes and builders keep indexes of their children. The calls are made by the
indexes: they decide whether a child is merged, into which other one, and which one is removed. Main
statement: after any calls the workbench is the one without indexes, all indexes are right, and a call that
fails leaves the tree, all builders and all other trees as they were.
-/

namespace CommandTree

open scoped List

/-- A workbench with the indexes of its nodes, and of the children that builders hold. -/
structure Catalogued (S C M : Type) extends Workbench S C M where
  nodes : Indexes
  held : Text → Index

variable {S C M : Type}

theorem Workbench.Sound.nodup_held {w : Workbench S C M} (h : w.Sound) {name : Text}
    {b : Builder S C M} (hb : w.named? name = some b) : (Tree.idsOf b.children).Nodup := by
  have hparts := Tree.nodup_of_subperm (Tree.idsOf_subperm (held_subperm hb)) h.ids
  rw [Tree.idsOf_append, Tree.idsOf_append, List.append_assoc] at hparts
  exact (List.nodup_append.mp hparts).1

namespace Catalogued

def ofOptions (options : Options) : Catalogued S C M where
  toWorkbench := .ofOptions options
  nodes := fun _ => .empty
  held := fun _ => .empty

/-- The children of a node. One that is gone has none. -/
def brood (s : Catalogued S C M) (id : NodeId) : Brood S C M :=
  match s.find? id with
  | some t => ⟨t.children, s.nodes id, s.nodes⟩
  | none => ⟨[], .empty, s.nodes⟩

/-- Adds a child to a node. A tree that was merged away stays on the workbench. -/
def addChild (s : Catalogued S C M) (parent : NodeId) (c : Tree S C M) :
    Except Fault Unit × Catalogued S C M :=
  match (s.brood parent).add s.step c with
  | .error f => (.error f, ⟨s.keep c, s.nodes, s.held⟩)
  | .ok b =>
    let t := s.resolve parent
    let w := { s.replace parent (.node t.id t.traits b.children) with step := s.step + 1 }
    let merged := ((s.brood parent).index.find? c.name).isSome
    (.ok (), ⟨if merged then w.keep c else w, Function.update b.nodes parent b.index, s.held⟩)

/-- Removes a child; it is lost. -/
def removeChild (s : Catalogued S C M) (parent : NodeId) (name : Text) : Catalogued S C M :=
  let t := s.resolve parent
  let b := (s.brood parent).remove name
  ⟨s.replace parent (.node t.id t.traits b.children), Function.update b.nodes parent b.index, s.held⟩

/-- Builds a node, to which copies of the builder's children are added. -/
def build (s : Catalogued S C M) (b : Builder S C M) :
    Except Fault (Tree S C M × Catalogued S C M) :=
  match Brood.build s.step s.nodes b.children with
  | .error f => .error f
  | .ok c =>
    .ok (.node [s.step] b.toTraits c.children,
      ⟨{ s.toWorkbench with step := s.step + 1 }, Function.update c.nodes [s.step] c.index, s.held⟩)

/-- A copy of a node and all below it. -/
def clone (s : Catalogued S C M) (id : NodeId) : Tree S C M × Catalogued S C M :=
  ((s.resolve id).copy s.step,
    ⟨{ s.toWorkbench with step := s.step + 1 }, Brood.copied s.step s.nodes (s.resolve id), s.held⟩)

/-- Adds a finished child to the builder of a name. A child that it refuses is loose again. -/
def attach (s : Catalogued S C M) (name : Text) (b : Builder S C M) (c : Tree S C M) :
    Except Fault Unit × Catalogued S C M :=
  if b.redirect.isSome then
    (.error (.structural (text "Cannot add children to a redirected node")),
      ⟨(s.keep c).store name b, s.nodes, s.held⟩)
  else
    match Brood.add s.step ⟨b.children, s.held name, s.nodes⟩ c with
    | .error f => (.error f, ⟨(s.keep c).store name b, s.nodes, s.held⟩)
    | .ok h =>
      let merged := ((s.held name).find? c.name).isSome
      let b' := { b with
        children := h.children
        absorbed := if merged then b.absorbed ++ [c] else b.absorbed }
      (.ok (),
        ⟨{ s.toWorkbench with step := s.step + 1 }.store name b', h.nodes,
          Function.update s.held name h.index⟩)

/-- Makes a call. One that fails may have changed the workbench. -/
def perform (s : Catalogued S C M) : Call S C M → Except Fault Unit × Catalogued S C M
  | .start name kind =>
    (.ok (), ⟨s.store name (.ofKind kind), s.nodes, Function.update s.held name .empty⟩)
  | .change name (.built part) =>
    match s.named? name with
    | none => (.error Workbench.noSuchNode, s)
    | some b =>
      match s.named? part with
      | none => (.error Workbench.noSuchNode, ⟨s.store name b, s.nodes, s.held⟩)
      | some b' =>
        match s.build b' with
        | .error f => (.error f, ⟨s.store name b, s.nodes, s.held⟩)
        | .ok (c, s) => s.attach name b c
  | .change name (.loose label) =>
    match s.named? name with
    | none => (.error Workbench.noSuchNode, s)
    | some b =>
      match s.take label with
      | (.error f, w) => (.error f, ⟨w.store name b, s.nodes, s.held⟩)
      | (.ok c, w) => attach ⟨w, s.nodes, s.held⟩ name b c
  | .change name change =>
    let (outcome, w) := s.amend name [change.setting]
    (outcome, ⟨w, s.nodes, s.held⟩)
  | .build name label =>
    match s.named? name with
    | none => (.error Workbench.noSuchNode, s)
    | some b =>
      match s.build b with
      | .error f => (.error f, s)
      | .ok (t, s) => (.ok (), ⟨s.putAside label t, s.nodes, s.held⟩)
  | .clone target label =>
    match s.locate target with
    | .error f => (.error f, s)
    | .ok id => let (t, s) := s.clone id; (.ok (), ⟨s.putAside label t, s.nodes, s.held⟩)
  | .register name =>
    match s.named? name with
    | none => (.error Workbench.noSuchNode, s)
    | some b =>
      match s.build b with
      | .error f => (.error f, s)
      | .ok (t, s) => s.addChild s.root.id t
  | .add target label =>
    match s.locate target with
    | .error f => (.error f, s)
    | .ok parent =>
      match s.take label with
      | (.error f, w) => (.error f, ⟨w, s.nodes, s.held⟩)
      | (.ok t, w) => addChild ⟨w, s.nodes, s.held⟩ parent t
  | .remove target name =>
    match s.locate target with
    | .error f => (.error f, s)
    | .ok parent => (.ok (), s.removeChild parent name)

def act (s : Catalogued S C M) : Act S C M → Except Fault Unit × Catalogued S C M
  | .call call => s.perform call
  | .hold label id => (.ok (), ⟨s.label label id, s.nodes, s.held⟩)

/-- Does things one after another, also after one that fails. -/
def run (options : Options) (acts : List (Act S C M)) : Catalogued S C M :=
  acts.foldl (fun s a => (s.act a).2) (.ofOptions options)

/-! Right indexes -/

/-- All nodes have right indexes, and so have the children that builders hold. -/
structure Right (s : Catalogued S C M) : Prop where
  nodes : ∀ t ∈ s.trees, t.Indexed s.nodes
  held : ∀ name b, s.named? name = some b → (s.held name).Describes b.children

variable {s : Catalogued S C M} {c : Tree S C M}

theorem Right.among (hs : s.Right) {t : Tree S C M} (ht : Tree.Among s.trees t) : t.Indexed s.nodes := by
  obtain ⟨u, hu, hut⟩ := ht
  exact fun v hv => hs.nodes u hu v (hut.trans hv)

/-- A node that is put aside. -/
theorem Right.keep (hs : s.Right) (hc : c.Indexed s.nodes) : Right ⟨s.keep c, s.nodes, s.held⟩ where
  nodes t ht := by
    rcases List.mem_cons.mp ((Workbench.trees_keep s.toWorkbench c).subset ht) with rfl | ht
    · exact hc
    · exact hs.nodes t ht
  held := hs.held

theorem Right.putAside (hs : s.Right) (hc : c.Indexed s.nodes) (label : Text) :
    Right ⟨s.putAside label c, s.nodes, s.held⟩ :=
  ⟨(hs.keep hc).nodes, (hs.keep hc).held⟩

/-- A builder in the place of the one that has its name. -/
theorem Right.store (hs : s.Right) {name : Text} {b : Builder S C M} {x : Index} {nodes : Indexes}
    (step : Nat) (hx : x.Describes b.children) (hb : ∀ t ∈ b.children ++ b.absorbed, t.Indexed nodes)
    (hrest : ∀ t ∈ (s.without name).trees, t.Indexed nodes) :
    Right ⟨{ s.store name b with step }, nodes, Function.update s.held name x⟩ where
  nodes t ht := by
    rcases List.mem_append.mp ((Workbench.trees_store s.toWorkbench name b).subset ht) with ht | ht
    · exact hb t ht
    · exact hrest t ht
  held n b' hb' := by
    by_cases hn : n = name
    · subst hn
      obtain rfl := Option.some.inj ((Workbench.named?_store _ _ _).symm.trans hb')
      simpa only [Function.update_self] using hx
    · simp only [Function.update_of_ne hn]
      exact hs.held n b' ((Workbench.named?_store_of_ne hn _ _).symm.trans hb')

theorem Right.without (hs : s.Right) (name : Text) : ∀ t ∈ (s.without name).trees, t.Indexed s.nodes :=
  fun t ht => hs.nodes t ((Workbench.trees_without_sublist s.toWorkbench name).subset ht)

/-- A builder that holds what it held. -/
theorem Right.store_same (hs : s.Right) {name : Text} {b b' : Builder S C M}
    (hb : s.named? name = some b) (hchildren : b'.children = b.children)
    (habsorbed : b'.absorbed = b.absorbed) : Right ⟨s.store name b', s.nodes, s.held⟩ := by
  have hall : ∀ t ∈ b'.children ++ b'.absorbed, t.Indexed s.nodes := by
    rw [hchildren, habsorbed]
    exact fun t ht => hs.nodes t ((Workbench.held_subperm hb).subset (List.mem_append_left _ ht))
  have hx : (s.held name).Describes b'.children := hchildren ▸ hs.held name b hb
  have h : Right ⟨s.store name b', s.nodes, Function.update s.held name (s.held name)⟩ :=
    hs.store s.step hx hall (hs.without name)
  rwa [Function.update_eq_self] at h

theorem named?_replace (w : Workbench S C M) (i : NodeId) (new : Tree S C M) (name : Text) :
    (w.replace i new).named? name = (w.named? name).map fun b =>
      { b with
        children := Tree.replaceAtAll i b.children new
        absorbed := Tree.replaceAtAll i b.absorbed new } := by
  simp only [Workbench.named?, Workbench.replace]
  induction w.builders with
  | nil => rfl
  | cons p ps ih =>
    rw [List.map_cons, List.lookup_cons, List.lookup_cons, ih]
    cases name == p.1 <;> rfl

/-- A node gets other children, with right indexes. -/
theorem Right.replace (hs : s.Right) (hw : s.Sound) {t : Tree S C M} (ht : Tree.Among s.trees t)
    {cs : List (Tree S C M)} {nodes : Indexes} (step : Nat)
    (hnew : (Tree.node t.id t.traits cs).Indexed nodes)
    (hsame : ∀ j ∈ Tree.idsOf s.trees, j ∉ t.ids → nodes j = s.nodes j) :
    Right ⟨{ s.replace t.id (.node t.id t.traits cs) with step }, nodes, s.held⟩ where
  nodes := by
    change ∀ u ∈ (s.replace t.id (.node t.id t.traits cs)).trees, _
    rw [Workbench.trees_replace]
    exact Tree.indexed_replaceAtAll ht hw.ids hs.nodes hnew rfl hsame
  held name b hb := by
    have hb' := (named?_replace s.toWorkbench t.id (.node t.id t.traits cs) name).symm.trans hb
    obtain ⟨b₀, hb₀, rfl⟩ := Option.map_eq_some_iff.mp hb'
    refine (hs.held name b₀ hb₀).congr ?_
    rw [Tree.replaceAtAll_eq_map, List.map_map]
    refine List.map_congr_left fun c hc => (Tree.label_replaceAt fun hct => ?_).symm
    have hmem : Tree.Among s.trees c :=
      ⟨c, (Workbench.held_subperm hb₀).subset (by simp [hc]), .top⟩
    obtain rfl : c = t := by
      rw [← Workbench.resolve_of_among hw.ids hmem, hct, Workbench.resolve_of_among hw.ids ht]
    rfl

/-- The index of a node that is gone does not matter. -/
theorem Right.update_missing (hs : s.Right) {i : NodeId} (hi : i ∉ Tree.idsOf s.trees) (x : Index) :
    Right ⟨s.toWorkbench, Function.update s.nodes i x, s.held⟩ where
  nodes t ht := by
    refine (hs.nodes t ht).congr fun j hj => Function.update_of_ne ?_ _ _
    rintro rfl
    exact hi (Tree.mem_idsOf_iff.mpr ⟨t, ht, hj⟩)
  held := hs.held

/-- What was done with indexes and without them has the same outcome, and the indexes are right
afterwards. -/
structure Agrees (r : Except Fault Unit × Catalogued S C M) (r' : Work S C M Unit) : Prop where
  outcome : r.1 = r'.1
  bench : r.2.toWorkbench = r'.2
  right : r.2.Right

/-- Children with right indexes make a node with right indexes. -/
theorem indexed_of_right (traits : Traits S C M) {b : Brood S C M} (hb : b.Right) {i : NodeId}
    (hi : i ∉ Tree.idsOf b.children) :
    (Tree.node i traits b.children).Indexed (Function.update b.nodes i b.index) := by
  refine Tree.indexed_iff.mpr ⟨?_, fun c hc => (hb.below c hc).congr fun j hj => ?_⟩
  · rw [Tree.id_node, Function.update_self]
    exact hb.index
  · refine Function.update_of_ne ?_ _ _
    rintro rfl
    exact hi ((Tree.ids_sublist_idsOf hc).subset hj)

theorem brood_of_among (hw : s.Sound) {t : Tree S C M} (ht : Tree.Among s.trees t) :
    s.brood t.id = ⟨t.children, s.nodes t.id, s.nodes⟩ := by
  rw [brood, (Workbench.find?_eq_some_iff hw.ids).mpr ⟨ht, rfl⟩]

theorem brood_of_missing (hw : s.Sound) {i : NodeId} (hi : i ∉ Tree.idsOf s.trees) :
    s.brood i = ⟨[], .empty, s.nodes⟩ := by
  cases hf : s.find? i with
  | none => rw [brood, hf]
  | some t =>
    obtain ⟨ht, rfl⟩ := (Workbench.find?_eq_some_iff hw.ids).mp hf
    exact absurd ht.id_mem hi

theorem right_of_among (hs : s.Right) {t : Tree S C M} (ht : Tree.Among s.trees t) :
    Brood.Right ⟨t.children, s.nodes t.id, s.nodes⟩ :=
  let ⟨hindex, hbelow⟩ := Tree.indexed_iff.mp (hs.among ht)
  ⟨hindex, hbelow⟩

end Catalogued

theorem Index.Describes.find?_isSome {x : Index} {cs : List (Tree S C M)} (h : x.Describes cs)
    (n : Text) : (x.find? n).isSome = Tree.anyNamed n cs := by
  rw [h.find?_eq, Option.isSome_map, Bool.eq_iff_iff, List.find?_isSome, Tree.anyNamed_iff]
  simp

namespace Catalogued

variable {s : Catalogued S C M} {c : Tree S C M}

/-- Where a child is added stand the nodes that were there, those of the child, and copies of them. -/
theorem mem_idsOf_insertChild {step : Nat} {cs : List (Tree S C M)} (hcs : Tree.Siblings cs)
    (hc : c.NamesDistinct) {j : NodeId} (hj : j ∈ Tree.idsOf (Tree.insertChild step cs c)) :
    j ∈ Tree.idsOf cs ∨ j ∈ c.ids ∨ ∃ k ∈ c.ids, j = step :: k := by
  obtain ⟨-, hadds⟩ := Tree.insertChild_spec step hcs hc
  split at hadds
  · exact (Brood.mem_of_adds hadds hj).imp_right .inr
  · rw [hadds] at hj
    exact (List.mem_append.mp hj).imp_right .inl

/-- Adding a child by the indexes, to a node that is there. -/
theorem agrees_addChild_of_among (hs : s.Right) (hc : s.InHand c) (hi : c.Indexed s.nodes)
    {t : Tree S C M} (ht : Tree.Among s.trees t) (hroot : c.isRoot = false) :
    Agrees (s.addChild t.id c) (s.toWorkbench.addChild t.id c) := by
  have hw := hc.sound
  have holder : ∀ k, s.step :: k ∉ Tree.idsOf (c :: s.trees) := hc.fresh.not_mem
  have hfresh := hc.fresh.nodup
  rw [Tree.idsOf_cons] at hfresh holder
  obtain ⟨hcids, -, hdisjoint⟩ := List.nodup_append.mp hfresh
  have hsib := Tree.namesDistinct_iff.mp (hw.namesDistinct ht)
  have htids : t.ids.Nodup := hw.ids.sublist ht.ids_sublist
  have htrees : t.ids ⊆ Tree.idsOf s.trees := ht.ids_sublist.subset
  rw [Tree.ids_eq] at htids htrees
  obtain ⟨htop, hbelow⟩ := List.nodup_cons.mp htids
  obtain ⟨b, hadd, hchildren, hright, hkeeps⟩ := Brood.add_spec s.step
    (right_of_among hs ht) hsib hbelow
    (fun k _ hmem => holder k (List.mem_append_right _ (htrees (List.mem_cons_of_mem _ hmem))))
    hc.names hcids hi hroot
  have houtside : t.id ∉ Tree.idsOf b.children := by
    rw [hchildren]
    intro hmem
    rcases mem_idsOf_insertChild hsib hc.names hmem with hold | hnew | ⟨k, -, hcopy⟩
    · exact htop hold
    · exact hdisjoint _ hnew _ (htrees List.mem_cons_self) rfl
    · exact holder k (hcopy ▸ List.mem_append_right _ (htrees List.mem_cons_self))
  -- Only the node, those below it and copies of the child have other indexes than before.
  have hsame : ∀ j, j ∈ c.ids ++ Tree.idsOf s.trees → j ∉ t.ids →
      Function.update b.nodes t.id b.index j = s.nodes j := by
    intro j hj hjt
    rw [Tree.ids_eq, List.mem_cons, not_or] at hjt
    rw [Function.update_of_ne hjt.1]
    exact hkeeps j hjt.2 fun k _ heq => holder k (heq ▸ hj)
  have hplaced : Right ⟨{ s.replace t.id (.node t.id t.traits b.children) with step := s.step + 1 },
      Function.update b.nodes t.id b.index, s.held⟩ :=
    hs.replace hw ht _ (indexed_of_right _ hright houtside) fun j hj =>
      hsame j (List.mem_append_right _ hj)
  have hc' : c.Indexed (Function.update b.nodes t.id b.index) := hi.congr fun j hj =>
    hsame j (List.mem_append_left _ hj) fun hjt => hdisjoint j hj j (htrees (Tree.ids_eq t ▸ hjt)) rfl
  rw [addChild, brood_of_among hw ht, hadd, Workbench.addChild_of_among hw.ids ht hroot]
  dsimp only
  rw [Workbench.resolve_of_among hw.ids ht, (right_of_among hs ht).index.find?_isSome]
  refine ⟨rfl, ?_, ?_⟩
  · rw [hchildren]
    rfl
  · cases Tree.anyNamed c.name t.children with
    | false => exact hplaced
    | true => exact hplaced.keep hc'

/-- Adding a child by the indexes, where the node is gone. -/
theorem agrees_addChild_of_missing (hs : s.Right) (hw : s.Sound) {parent : NodeId}
    (hno : parent ∉ Tree.idsOf s.trees) (hbare : s.resolve parent = .bare parent)
    (hroot : c.isRoot = false) :
    Agrees (s.addChild parent c) (s.toWorkbench.addChild parent c) := by
  have hempty : Brood.Right (⟨[], .empty, s.nodes⟩ : Brood S C M) := ⟨Index.describes_empty, by simp⟩
  have hadd : Brood.add s.step ⟨[], .empty, s.nodes⟩ c =
      .ok (Brood.insert ⟨[], .empty, s.nodes⟩ c) := by
    rw [Brood.add, hroot, Brood.meet_of_new hempty (by simp)]
    rfl
  rw [addChild, brood_of_missing hw hno, hadd, Workbench.addChild_of_missing hbare hno hroot]
  dsimp only
  rw [Workbench.replace_of_not_mem hno]
  exact ⟨rfl, rfl, (hs.update_missing hno _).nodes, hs.held⟩

/-- Adding a child by the indexes. -/
theorem agrees_addChild (hs : s.Right) (hc : s.InHand c) (hi : c.Indexed s.nodes) (parent : NodeId) :
    Agrees (s.addChild parent c) (s.toWorkbench.addChild parent c) := by
  cases hroot : c.isRoot with
  | true =>
    rw [addChild, Brood.add_root hroot, Workbench.addChild_of_root hroot]
    exact ⟨rfl, rfl, hs.keep hi⟩
  | false =>
    rcases hc.sound.resolve_cases parent with ⟨ht, hid⟩ | ⟨hbare, hno⟩
    · generalize s.resolve parent = t at ht hid
      subst hid
      exact agrees_addChild_of_among hs hc hi ht hroot
    · exact agrees_addChild_of_missing hs hc.sound hno hbare hroot

/-- Removing a child by the indexes. -/
theorem removeChild_spec (hs : s.Right) (hw : s.Sound) (parent : NodeId) (name : Text) :
    (s.removeChild parent name).toWorkbench = s.toWorkbench.removeChild parent name ∧
      (s.removeChild parent name).Right := by
  rcases hw.resolve_cases parent with ⟨ht, hid⟩ | ⟨-, hno⟩
  · generalize s.resolve parent = t at ht hid
    subst hid
    have hresolve : s.resolve t.id = t := Workbench.resolve_of_among hw.ids ht
    have htids : t.ids.Nodup := hw.ids.sublist ht.ids_sublist
    rw [Tree.ids_eq] at htids
    obtain ⟨htop, hbelow⟩ := List.nodup_cons.mp htids
    obtain ⟨hchildren, hright, hnodes⟩ := Brood.remove_spec (right_of_among hs ht)
      (hw.namesDistinct ht).nodup (Tree.nodup_map_id hbelow) name
    rw [removeChild, brood_of_among hw ht, Workbench.removeChild, hresolve]
    dsimp only
    generalize Brood.remove ⟨t.children, s.nodes t.id, s.nodes⟩ name = b at hchildren hright hnodes
    have houtside : t.id ∉ Tree.idsOf b.children := by
      rw [hchildren]
      exact fun hmem => htop ((List.filter_sublist.flatMap Tree.ids).subset hmem)
    refine ⟨by rw [hchildren]; rfl, ?_⟩
    refine hs.replace hw ht s.step (indexed_of_right _ hright houtside) fun j _ hjt => ?_
    have hne : j ≠ t.id := fun heq => hjt (heq ▸ Tree.Has.top.id_mem)
    rw [Function.update_of_ne hne, hnodes]
  · rw [removeChild, brood_of_missing hw hno, Workbench.removeChild,
      Workbench.replace_of_not_mem hno]
    dsimp only
    rw [Workbench.replace_of_not_mem hno]
    exact ⟨rfl, hs.update_missing hno _⟩

/-- Building by the indexes never fails: what a builder holds can be held by a node. No index of a node that
is there changes. -/
theorem build_spec (hs : s.Right) (hw : s.Sound) {name : Text} {b : Builder S C M}
    (hb : s.named? name = some b) :
    ∃ s', s.build b = .ok ((s.toWorkbench.build b).1, s') ∧
      s'.toWorkbench = (s.toWorkbench.build b).2 ∧ s'.held = s.held ∧ s'.Right ∧
      (s.toWorkbench.build b).1.Indexed s'.nodes ∧
      ∀ j ∈ Tree.idsOf s.trees, s'.nodes j = s.nodes j := by
  have hheld : ∀ c ∈ b.children, c ∈ s.trees := fun c hc =>
    (Workbench.held_subperm hb).subset (by simp [hc])
  obtain ⟨c, hbuild, hchildren, hright, hkeeps⟩ := Brood.build_spec s.step s.nodes
    (hw.siblings hb) (hw.nodup_held hb) fun c hc =>
      ⟨(hs.held name b hb).noRoot c hc, (hs.nodes c (hheld c hc)).noRootBelow⟩
  have houtside : [s.step] ∉ Tree.idsOf c.children := by
    have hids := (hw.inHand_build hb).fresh.nodup
    rw [Tree.idsOf_cons] at hids
    have hbuilt : (s.toWorkbench.build b).1.ids.Nodup := (List.nodup_append.mp hids).1
    rw [Tree.ids_eq, List.nodup_cons] at hbuilt
    rw [hchildren]
    exact hbuilt.1
  have hsame : ∀ j ∈ Tree.idsOf s.trees, Function.update c.nodes [s.step] c.index j = s.nodes j := by
    intro j hj
    have hcopy : ∀ k, j ≠ s.step :: k := fun k heq => hw.fresh.not_mem k (heq ▸ hj)
    rw [Function.update_of_ne (hcopy [])]
    exact hkeeps j List.not_mem_nil fun k _ => hcopy k
  refine ⟨⟨(s.toWorkbench.build b).2, Function.update c.nodes [s.step] c.index, s.held⟩, ?_, rfl, rfl,
    ⟨fun t ht => (hs.nodes t ht).congr fun j hj => hsame j (Tree.mem_idsOf_iff.mpr ⟨t, ht, hj⟩),
      hs.held⟩, ?_, hsame⟩
  · rw [build, hbuild]
    dsimp only
    rw [hchildren]
    rfl
  · have hnode := indexed_of_right b.toTraits hright houtside
    rwa [hchildren] at hnode

/-- Copying by the indexes. -/
theorem clone_spec (hs : s.Right) (hw : s.Sound) (i : NodeId) :
    (s.clone i).1 = (s.toWorkbench.clone i).1 ∧
      (s.clone i).2.toWorkbench = (s.toWorkbench.clone i).2 ∧ (s.clone i).2.Right ∧
      (s.clone i).1.Indexed (s.clone i).2.nodes := by
  have hsource : (s.resolve i).NamesDistinct ∧ (s.resolve i).NoRootBelow ∧ (s.resolve i).ids.Nodup := by
    rcases hw.resolve_cases i with ⟨ht, -⟩ | ⟨hbare, -⟩
    · exact ⟨hw.namesDistinct ht, (hs.among ht).noRootBelow, hw.ids.sublist ht.ids_sublist⟩
    · rw [hbare]
      refine ⟨Tree.namesDistinct_bare i, fun u hu c hc => ?_, List.nodup_singleton i⟩
      rcases Tree.has_iff.mp hu with rfl | ⟨d, hd, -⟩
      · exact absurd hc List.not_mem_nil
      · exact absurd hd List.not_mem_nil
  obtain ⟨hcopy, hkeeps⟩ := Brood.copied_spec s.step s.nodes hsource.1 hsource.2.1 hsource.2.2
  refine ⟨rfl, rfl, ⟨fun t ht => (hs.nodes t ht).congr fun j hj => ?_, hs.held⟩, hcopy⟩
  exact hkeeps j List.not_mem_nil fun k _ heq =>
    hw.fresh.not_mem k (heq ▸ Tree.mem_idsOf_iff.mpr ⟨t, ht, hj⟩)

/-- Adding a child by the index to those that a builder holds. Besides them only copies of the child have
other indexes than before. -/
theorem add_held_spec (hs : s.Right) (hc : s.InHand c) (hi : c.Indexed s.nodes) {name : Text}
    {b : Builder S C M} (hb : s.named? name = some b) (hroot : c.isRoot = false) :
    ∃ h, Brood.add s.step ⟨b.children, s.held name, s.nodes⟩ c = .ok h ∧
      h.children = Tree.insertChild s.step b.children c ∧ h.Right ∧
      (∀ t ∈ b.absorbed ++ (s.without name).trees, t.Indexed h.nodes) ∧ c.Indexed h.nodes := by
  have hw := hc.sound
  have hfresh := hc.fresh.nodup
  have holder : ∀ k, s.step :: k ∉ Tree.idsOf (c :: s.trees) := hc.fresh.not_mem
  rw [Tree.idsOf_cons] at hfresh holder
  obtain ⟨hcids, -, hdisjoint⟩ := List.nodup_append.mp hfresh
  have hheld := Workbench.held_subperm hb
  have hparts := Tree.nodup_of_subperm (Tree.idsOf_subperm hheld) hw.ids
  rw [Tree.idsOf_append, Tree.idsOf_append, List.append_assoc] at hparts
  obtain ⟨hbids, -, hothers⟩ := List.nodup_append.mp hparts
  have hmem : ∀ t ∈ b.children ++ b.absorbed ++ (s.without name).trees, ∀ j ∈ t.ids,
      j ∈ Tree.idsOf s.trees := fun t ht j hj =>
    Tree.mem_idsOf_iff.mpr ⟨t, hheld.subset ht, hj⟩
  have hbrood : Brood.Right ⟨b.children, s.held name, s.nodes⟩ :=
    ⟨hs.held name b hb, fun d hd => hs.nodes d (hheld.subset (by simp [hd]))⟩
  obtain ⟨h, hadd, hchildren, hright, hkeeps⟩ := Brood.add_spec s.step hbrood
    (hw.siblings hb) hbids
    (fun k _ hk => by
      obtain ⟨d, hd, hkd⟩ := Tree.mem_idsOf_iff.mp hk
      exact holder k (List.mem_append_right _ (hmem d (by simp [hd]) _ hkd)))
    hc.names hcids hi hroot
  refine ⟨h, hadd, hchildren, hright, fun t ht => ?_, hi.congr fun j hj => ?_⟩
  -- The trees beside the children have no node in common with them.
  · have ht' : t ∈ b.children ++ b.absorbed ++ (s.without name).trees := by
      rw [List.append_assoc]
      exact List.mem_append_right _ ht
    refine (hs.nodes t (hheld.subset ht')).congr fun j hj => hkeeps j (fun hjb => ?_) fun k _ heq => ?_
    · refine hothers j hjb j ?_ rfl
      rw [← Tree.idsOf_append]
      exact Tree.mem_idsOf_iff.mpr ⟨t, ht, hj⟩
    · exact holder k (heq ▸ List.mem_append_right _ (hmem t ht' j hj))
  · refine hkeeps j (fun hjb => ?_) fun k _ heq => holder k (heq ▸ List.mem_append_left _ hj)
    obtain ⟨d, hd, hjd⟩ := Tree.mem_idsOf_iff.mp hjb
    exact hdisjoint j hj j (hmem d (by simp [hd]) j hjd) rfl

/-- Adding a child to a builder by the index of those that it holds. -/
theorem agrees_attach (hs : s.Right) (hc : s.InHand c) (hi : c.Indexed s.nodes) {name : Text}
    {b : Builder S C M} (hb : s.named? name = some b) :
    Agrees (s.attach name b c)
      ((s.toWorkbench.attach b c).1,
        (s.toWorkbench.attach b c).2.2.store name (s.toWorkbench.attach b c).2.1) := by
  have hrefused : Right ⟨(s.keep c).store name b, s.nodes, s.held⟩ := (hs.keep hi).store_same hb rfl rfl
  cases hredirect : b.redirect with
  | some target =>
    rw [attach, Workbench.attach, Builder.addChild, hredirect]
    exact ⟨rfl, rfl, hrefused⟩
  | none =>
    cases hroot : c.isRoot with
    | true =>
      rw [attach, Workbench.attach, Builder.addChild, hredirect, hroot, Brood.add_root hroot]
      exact ⟨rfl, rfl, hrefused⟩
    | false =>
      obtain ⟨h, hadd, hchildren, hright, hbeside, hc'⟩ := add_held_spec hs hc hi hb hroot
      rw [attach, Workbench.attach, Builder.addChild, hredirect, hroot, hadd]
      simp only [Option.isSome_none, Bool.false_eq_true, if_false]
      rw [(hs.held name b hb).find?_isSome]
      refine ⟨rfl, by rw [hchildren], hs.store _ hright.index (fun t ht => ?_) fun t ht =>
        hbeside t (List.mem_append_right _ ht)⟩
      rcases List.mem_append.mp ht with ht | ht
      · exact hright.below t ht
      · cases hn : Tree.anyNamed c.name b.children with
        | false => exact hbeside t (List.mem_append_left _ (by simpa [hn] using ht))
        | true =>
          rw [hn] at ht
          rcases List.mem_append.mp ht with ht | ht
          · exact hbeside t (List.mem_append_left _ ht)
          · exact List.mem_singleton.mp ht ▸ hc'

/-- A node that is taken off the workbench. -/
theorem Right.take (hs : s.Right) {label : Text} {w : Workbench S C M}
    (ht : s.take label = (.ok c, w)) : Right ⟨w, s.nodes, s.held⟩ ∧ c.Indexed s.nodes := by
  have hsub := (Workbench.take_subperm ht).subset
  obtain ⟨-, rfl⟩ := Workbench.take_ok ht
  exact ⟨⟨fun t ht => hs.nodes t (hsub (List.mem_cons_of_mem c ht)), hs.held⟩,
    hs.nodes c (hsub List.mem_cons_self)⟩

/-- A change of a builder that adds no child leaves the indexes alone. -/
theorem agrees_change_plain (hs : s.Right) {name : Text} {b : Builder S C M}
    (hb : s.named? name = some b) (set : Setting S C M) (hset : ∀ part, set ≠ .child part) :
    Agrees ((s.amend name [set]).1, ⟨(s.amend name [set]).2, s.nodes, s.held⟩) (s.amend name [set]) := by
  refine ⟨rfl, rfl, ?_⟩
  obtain ⟨outcome, b', happly, hchildren, habsorbed, -⟩ := s.apply_of_no_child b hset
  rw [Workbench.amend_one hb, happly]
  exact hs.store_same hb hchildren habsorbed

theorem agrees_change (hs : s.Right) (hw : s.Sound) {name : Text} {b : Builder S C M}
    (hb : s.named? name = some b) (change : Change S C M) :
    Agrees (s.perform (.change name change)) (s.toWorkbench.perform (.change name change)) := by
  have hfailed : ∀ {part : Part S C M} {f : Fault},
      s.prepare part = (.error f, s.toWorkbench) →
      Agrees (.error f, ⟨s.store name b, s.nodes, s.held⟩) (s.amend name [.child part]) := by
    intro part f hpart
    have hamend : s.amend name [.child part] = (.error f, s.store name b) := by
      rw [Workbench.amend, hb]
      dsimp only
      rw [Workbench.apply, hpart]
    rw [hamend]
    exact ⟨rfl, rfl, hs.store_same hb rfl rfl⟩
  cases change with
  | built part =>
    rw [Workbench.perform, Change.setting]
    cases hpart : s.named? part with
    | none =>
      simp only [perform, hb, hpart]
      exact hfailed (by rw [Workbench.prepare, hpart])
    | some b' =>
      obtain ⟨s', hbuild, hbench, -, hs', hi, -⟩ := build_spec hs hw hpart
      have hprepare : s.prepare (.builder part) =
          (.ok (s.toWorkbench.build b').1, (s.toWorkbench.build b').2) := by
        rw [Workbench.prepare, hpart]
      have hhand := hw.inHand_build hpart
      simp only [perform, hb, hpart, hbuild, Workbench.amend_child hb hprepare]
      rw [← hbench] at hhand ⊢
      exact agrees_attach hs' hhand hi (by rw [hbench]; exact hb)
  | loose label =>
    rw [Workbench.perform, Change.setting]
    rcases htake : s.take label with ⟨f | c, w⟩
    · obtain rfl := Workbench.take_error htake
      simp only [perform, hb, htake]
      exact hfailed (by rw [Workbench.prepare, htake])
    · obtain ⟨hs', hi⟩ := hs.take htake
      have hprepare : s.prepare (.loose label) = (.ok c, w) := by rw [Workbench.prepare, htake]
      simp only [perform, hb, htake, Workbench.amend_child hb hprepare]
      have hb' : w.named? name = some b := by
        rw [(Workbench.take_ok htake).2]
        exact hb
      exact agrees_attach hs' (hw.inHand_take htake) hi hb'
  | command c => exact agrees_change_plain hs hb (.command c) (by simp)
  | requirement p => exact agrees_change_plain hs hb (.requirement p) (by simp)
  | contextRequirement p => exact agrees_change_plain hs hb (.contextRequirement p) (by simp)
  | provider p => exact agrees_change_plain hs hb (.provider p) (by simp)
  | forward target modifier forks =>
    exact agrees_change_plain hs hb (.forward target modifier forks) (by simp)

/-- A call that is made by the indexes does what it does without them, and leaves all indexes right. -/
theorem agrees_perform (hs : s.Right) (hw : s.Sound) (call : Call S C M) :
    Agrees (s.perform call) (s.toWorkbench.perform call) := by
  cases call with
  | start name kind =>
    refine ⟨rfl, rfl, ?_⟩
    exact hs.store s.step Index.describes_empty (by simp [Builder.ofKind]) (hs.without name)
  | change name change =>
    cases hb : s.named? name with
    | none =>
      have hamend : ∀ set : Setting S C M,
          s.amend name [set] = (.error Workbench.noSuchNode, s.toWorkbench) := fun set => by
        rw [Workbench.amend, hb]
      cases change <;> simp only [perform, Workbench.perform, hb, hamend] <;> exact ⟨rfl, rfl, hs⟩
    | some b => exact agrees_change hs hw hb change
  | build name label =>
    rw [perform, Workbench.perform]
    cases hb : s.named? name with
    | none => exact ⟨rfl, rfl, hs⟩
    | some b =>
      obtain ⟨s', hbuild, hbench, -, hs', hi, -⟩ := build_spec hs hw hb
      dsimp only
      rw [hbuild]
      dsimp only
      rw [← hbench]
      exact ⟨rfl, rfl, hs'.putAside hi label⟩
  | clone target label =>
    rw [perform, Workbench.perform]
    cases s.locate target with
    | error f => exact ⟨rfl, rfl, hs⟩
    | ok i =>
      obtain ⟨-, -, hs', hi⟩ := clone_spec hs hw i
      exact ⟨rfl, rfl, hs'.putAside hi label⟩
  | register name =>
    cases hb : s.named? name with
    | none =>
      rw [perform, Workbench.perform, hb]
      exact ⟨rfl, rfl, hs⟩
    | some b =>
      obtain ⟨s', hbuild, hbench, -, hs', hi, -⟩ := build_spec hs hw hb
      have hhand := hw.inHand_build hb
      rw [perform, hb, Workbench.perform_register_eq hb]
      dsimp only
      rw [hbuild]
      rw [← hbench] at hhand ⊢
      have hroot : s'.root.id = s.root.id := by rw [hbench]; rfl
      rw [← hroot]
      exact agrees_addChild hs' hhand hi s'.root.id
  | add target label =>
    rw [perform, Workbench.perform]
    cases s.locate target with
    | error f => exact ⟨rfl, rfl, hs⟩
    | ok parent =>
      dsimp only
      rcases htake : s.take label with ⟨f | c, w⟩
      · obtain rfl := Workbench.take_error htake
        exact ⟨rfl, rfl, hs⟩
      · obtain ⟨hs', hi⟩ := hs.take htake
        exact agrees_addChild hs' (hw.inHand_take htake) hi parent
  | remove target name =>
    rw [perform, Workbench.perform]
    cases s.locate target with
    | error f => exact ⟨rfl, rfl, hs⟩
    | ok parent =>
      obtain ⟨hbench, hs'⟩ := removeChild_spec hs hw parent name
      exact ⟨rfl, hbench, hs'⟩

theorem agrees_act (hs : s.Right) (hw : s.Sound) (a : Act S C M) :
    Agrees (s.act a) (s.toWorkbench.act a) := by
  cases a with
  | call call => exact agrees_perform hs hw call
  | hold label i => exact ⟨rfl, rfl, ⟨hs.nodes, hs.held⟩⟩

/-! Calls that fail -/

theorem addChild_error {parent : NodeId} {f : Fault} (h : (s.addChild parent c).1 = .error f) :
    (s.addChild parent c).2.nodes = s.nodes ∧ (s.addChild parent c).2.held = s.held := by
  rw [addChild] at h ⊢
  cases hadd : (s.brood parent).add s.step c with
  | error f' => exact ⟨rfl, rfl⟩
  | ok b =>
    rw [hadd] at h
    cases h

theorem attach_error {name : Text} {b : Builder S C M} {f : Fault}
    (h : (s.attach name b c).1 = .error f) :
    (s.attach name b c).2.nodes = s.nodes ∧ (s.attach name b c).2.held = s.held := by
  rw [attach] at h ⊢
  cases hredirect : b.redirect.isSome with
  | true => exact ⟨rfl, rfl⟩
  | false =>
    rw [hredirect] at h
    cases hadd : Brood.add s.step ⟨b.children, s.held name, s.nodes⟩ c with
    | error f' => exact ⟨rfl, rfl⟩
    | ok x =>
      rw [hadd] at h
      cases h

/-- What builders hold has the same indexes, and so have all nodes that were there. -/
structure SameIndexes (s s' : Catalogued S C M) : Prop where
  held : s'.held = s.held
  nodes : ∀ j ∈ Tree.idsOf s.trees, s'.nodes j = s.nodes j

theorem sameIndexes_of_eq {s s' : Catalogued S C M} (h : s'.nodes = s.nodes ∧ s'.held = s.held) :
    s.SameIndexes s' := ⟨h.2, fun j _ => congrFun h.1 j⟩

theorem SameIndexes.of_eq {s' s'' : Catalogued S C M} (h : s.SameIndexes s')
    (heq : s''.nodes = s'.nodes ∧ s''.held = s'.held) : s.SameIndexes s'' :=
  ⟨heq.2.trans h.held, fun j hj => (congrFun heq.1 j).trans (h.nodes j hj)⟩

theorem sameIndexes_change (hs : s.Right) (hw : s.Sound) {name : Text} {change : Change S C M} {f : Fault}
    (h : (s.perform (.change name change)).1 = .error f) :
    s.SameIndexes (s.perform (.change name change)).2 := by
  cases change with
  | command | requirement | contextRequirement | provider | forward => exact sameIndexes_of_eq ⟨rfl, rfl⟩
  | built part =>
    cases hb : s.named? name with
    | none =>
      simp only [perform, hb]
      exact sameIndexes_of_eq ⟨rfl, rfl⟩
    | some b =>
      cases hpart : s.named? part with
      | none =>
        simp only [perform, hb, hpart]
        exact sameIndexes_of_eq ⟨rfl, rfl⟩
      | some b' =>
        obtain ⟨s', hbuild, -, hheld, -, -, hnodes⟩ := build_spec hs hw hpart
        simp only [perform, hb, hpart, hbuild] at h ⊢
        exact SameIndexes.of_eq ⟨hheld, hnodes⟩ (attach_error h)
  | loose label =>
    cases hb : s.named? name with
    | none =>
      simp only [perform, hb]
      exact sameIndexes_of_eq ⟨rfl, rfl⟩
    | some b =>
      rcases htake : s.take label with ⟨f' | c, w⟩
      · simp only [perform, hb, htake]
        exact sameIndexes_of_eq ⟨rfl, rfl⟩
      · simp only [perform, hb, htake] at h ⊢
        exact sameIndexes_of_eq (attach_error h)

/-- A call that fails changes no index of a node that is there, and none of what a builder holds. -/
theorem sameIndexes_of_error (hs : s.Right) (hw : s.Sound) {a : Act S C M} {f : Fault}
    (h : (s.act a).1 = .error f) : s.SameIndexes (s.act a).2 := by
  cases a with
  | hold label i => exact sameIndexes_of_eq ⟨rfl, rfl⟩
  | call call =>
    rw [act] at h ⊢
    cases call with
    | start name kind => cases h
    | change name change => exact sameIndexes_change hs hw h
    | build name label =>
      cases hb : s.named? name with
      | none =>
        simp only [perform, hb]
        exact sameIndexes_of_eq ⟨rfl, rfl⟩
      | some b =>
        obtain ⟨s', hbuild, -⟩ := build_spec hs hw hb
        simp only [perform, hb, hbuild] at h
        cases h
    | clone target label =>
      cases hl : s.locate target with
      | error f' =>
        simp only [perform, hl]
        exact sameIndexes_of_eq ⟨rfl, rfl⟩
      | ok i =>
        simp only [perform, hl] at h
        cases h
    | register name =>
      cases hb : s.named? name with
      | none =>
        simp only [perform, hb]
        exact sameIndexes_of_eq ⟨rfl, rfl⟩
      | some b =>
        obtain ⟨s', hbuild, -, hheld, -, -, hnodes⟩ := build_spec hs hw hb
        simp only [perform, hb, hbuild] at h ⊢
        exact SameIndexes.of_eq ⟨hheld, hnodes⟩ (addChild_error h)
    | add target label =>
      cases hl : s.locate target with
      | error f' =>
        simp only [perform, hl]
        exact sameIndexes_of_eq ⟨rfl, rfl⟩
      | ok parent =>
        rcases htake : s.take label with ⟨f' | c, w⟩
        · simp only [perform, hl, htake]
          exact sameIndexes_of_eq ⟨rfl, rfl⟩
        · simp only [perform, hl, htake] at h ⊢
          exact sameIndexes_of_eq (addChild_error h)
    | remove target name =>
      cases hl : s.locate target with
      | error f' =>
        simp only [perform, hl]
        exact sameIndexes_of_eq ⟨rfl, rfl⟩
      | ok parent =>
        simp only [perform, hl] at h
        cases h

/-! Any calls -/

end Catalogued

/-- All that an index is for: every name leads to the one child that has it, the arguments are listed in the
order of the children, and words are not overlooked. Siblings have different names and identities, and none
of them is a root. -/
structure Index.Finds (x : Index) (cs : List (Tree S C M)) : Prop where
  names : (cs.map Tree.name).Nodup
  identities : (cs.map Tree.id).Nodup
  found : ∀ n i, x.find? n = some i ↔ ∃ c ∈ cs, c.name = n ∧ c.id = i
  missed : ∀ n, x.find? n = none ↔ ∀ c ∈ cs, c.name ≠ n
  arguments : x.arguments = (cs.filter Tree.isArgument).map Tree.id
  nodup : x.arguments.Nodup
  literals : (∃ c ∈ cs, c.isLiteral = true) → x.hasLiterals = true
  noRoot : ∀ c ∈ cs, c.isRoot = false

theorem Index.Describes.finds {x : Index} {cs : List (Tree S C M)} (h : x.Describes cs)
    (hnames : (cs.map Tree.name).Nodup) (hids : (cs.map Tree.id).Nodup) : x.Finds cs where
  names := hnames
  identities := hids
  found n i := by
    rw [h.find?_eq, Option.map_eq_some_iff]
    refine exists_congr fun c => ?_
    rw [Tree.find?_key_eq_some_iff hnames, and_assoc]
  missed n := by
    rw [h.find?_eq, Option.map_eq_none_iff, List.find?_eq_none]
    simp
  arguments := h.arguments
  nodup := by
    rw [h.arguments]
    exact hids.sublist (List.filter_sublist.map _)
  literals := fun ⟨c, hc, hl⟩ => h.literals c hc hl
  noRoot := h.noRoot

namespace Catalogued

theorem right_ofOptions (options : Options) : (ofOptions options : Catalogued S C M).Right where
  nodes t ht := by
    obtain rfl : t = .bare [] := by simpa [ofOptions, Workbench.trees, Workbench.ofOptions] using ht
    exact Tree.indexed_iff.mpr ⟨Index.describes_empty, fun c hc => absurd hc List.not_mem_nil⟩
  held name b hb := by cases hb

/-- Whatever was done, the workbench is the one without indexes, in order, and its indexes are right. -/
theorem run_spec (options : Options) (acts : List (Act S C M)) :
    (run options acts).toWorkbench = Workbench.runActs options acts ∧
      (run options acts).Sound ∧ (run options acts).Right := by
  induction acts using List.reverseRecOn with
  | nil => exact ⟨rfl, Workbench.sound_ofOptions options, right_ofOptions options⟩
  | append_singleton acts a ih =>
    obtain ⟨hbench, hw, hs⟩ := ih
    have hlast : run options (acts ++ [a]) = ((run options acts).act a).2 := by simp [run]
    have hlast' : Workbench.runActs options (acts ++ [a]) =
        ((Workbench.runActs options acts).act a).2 := by simp [Workbench.runActs]
    obtain ⟨-, hnext, hs'⟩ := agrees_act hs hw a
    rw [hlast, hlast', ← hbench]
    exact ⟨hnext, hnext ▸ hw.act a, hs'⟩

/-- Whatever was done, by the indexes or without them, the workbench is the same. At every node of every
tree, and for what every builder holds, the index finds just the children, and identities lead to their
nodes. What is done then and fails leaves the tree, the builders, all other trees and their indexes as they
were. -/
theorem indexes_run (options : Options) (acts : List (Act S C M)) :
    (run options acts).toWorkbench = Workbench.runActs options acts ∧
    (∀ t, Tree.Among (run options acts).trees t →
      (run options acts).resolve t.id = t ∧ ((run options acts).nodes t.id).Finds t.children) ∧
    (∀ name b, (run options acts).named? name = some b →
      ((run options acts).held name).Finds b.children) ∧
    ∀ a f, ((run options acts).act a).1 = .error f →
      (run options acts).Untouched ((run options acts).act a).2.toWorkbench ∧
        (run options acts).SameIndexes ((run options acts).act a).2 := by
  obtain ⟨hbench, hw, hs⟩ := run_spec options acts
  generalize run options acts = s at hbench hw hs
  refine ⟨hbench, fun t ht => ⟨Workbench.resolve_of_among hw.ids ht, ?_⟩, fun name b hb => ?_,
    fun a f hf => ?_⟩
  · refine (hs.among ht t .top).finds (hw.namesDistinct ht).nodup (Tree.nodup_map_id ?_)
    have hids := hw.ids.sublist ht.ids_sublist
    rw [Tree.ids_eq] at hids
    exact (List.nodup_cons.mp hids).2
  · exact (hs.held name b hb).finds (hw.siblings hb).nodup (Tree.nodup_map_id (hw.nodup_held hb))
  · obtain ⟨houtcome, hnext, -⟩ := agrees_act hs hw a
    refine ⟨?_, sameIndexes_of_error hs hw hf⟩
    rw [hnext]
    exact Workbench.untouched_of_error hw (houtcome ▸ hf)

/-- `say` gets children twice, one of which is there already, and loses that one; the whole tree is copied. -/
def chatter : List (Act Unit Unit Unit) :=
  [.call (.start (text "what") (.argument (text "what") (BuiltIn.string .word).toArgumentType none)),
    .call (.start (text "hello") (.literal (text "hello"))),
    .call (.start (text "loudly") (.literal (text "loudly"))),
    .call (.start (text "first") (.literal (text "say"))),
    .call (.change (text "first") (.built (text "hello"))),
    .call (.change (text "first") (.built (text "what"))),
    .call (.register (text "first")),
    .call (.start (text "second") (.literal (text "say"))),
    .call (.change (text "second") (.built (text "hello"))),
    .call (.change (text "second") (.built (text "loudly"))),
    .call (.register (text "second")),
    .call (.remove (.path [text "say"]) (text "hello")),
    .call (.clone (.path []) (text "copy"))]

/-- The index of `say` finds what is left there. The copy is a root, so it cannot be added anywhere. -/
theorem indexes_run_chatter :
    ∃ t, (run ⟨true, .standard⟩ chatter).root.descend? [text "say"] = some t ∧
      t.children.map Tree.name = [text "what", text "loudly"] ∧
      ((run ⟨true, .standard⟩ chatter).nodes t.id).find? (text "hello") = none ∧
      ((run ⟨true, .standard⟩ chatter).nodes t.id).arguments = (t.arguments).map Tree.id ∧
      ((run ⟨true, .standard⟩ chatter).nodes t.id).hasLiterals = true ∧
      ((run ⟨true, .standard⟩ chatter).act (.call (.add (.path []) (text "copy")))).1 =
        .error Tree.rootAsChild ∧
      (run ⟨true, .standard⟩ chatter).Untouched
        ((run ⟨true, .standard⟩ chatter).act (.call (.add (.path []) (text "copy")))).2.toWorkbench := by
  obtain ⟨-, hnodes, -, hfailed⟩ := indexes_run ⟨true, .standard⟩ chatter
  have hsome : ((run ⟨true, .standard⟩ chatter).root.descend? [text "say"]).isSome := by decide +kernel
  obtain ⟨t, ht⟩ := Option.isSome_iff_exists.mp hsome
  have hnames : ((run ⟨true, .standard⟩ chatter).root.descend? [text "say"]).map
      (fun u => u.children.map fun c => (c.name, c.isLiteral)) =
        some [(text "what", false), (text "loudly", true)] := by decide +kernel
  rw [ht, Option.map_some, Option.some.injEq] at hnames
  have hwords : t.children.map Tree.name = [text "what", text "loudly"] := by
    simpa [Function.comp_def] using congrArg (List.map Prod.fst) hnames
  have hliteral : ∃ c ∈ t.children, c.isLiteral = true := by
    have hmem : (text "loudly", true) ∈ t.children.map fun c => (c.name, c.isLiteral) := by
      rw [hnames]
      simp
    obtain ⟨c, hc, heq⟩ := List.mem_map.mp hmem
    exact ⟨c, hc, congrArg Prod.snd heq⟩
  have hroot : ((run ⟨true, .standard⟩ chatter).act (.call (.add (.path []) (text "copy")))).1 =
      .error Tree.rootAsChild := by decide +kernel
  obtain ⟨-, hfinds⟩ := hnodes t ⟨_, List.mem_cons_self, Tree.has_of_descend ht⟩
  refine ⟨t, ht, hwords, (hfinds.missed _).mpr fun c hc hname => ?_, hfinds.arguments,
    hfinds.literals hliteral, hroot, (hfailed _ _ hroot).1⟩
  have hmem : text "hello" ∈ t.children.map Tree.name := hname ▸ List.mem_map_of_mem hc
  rw [hwords] at hmem
  revert hmem
  decide

end Catalogued

end CommandTree
