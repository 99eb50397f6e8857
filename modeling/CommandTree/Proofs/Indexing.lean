import CommandTree.Proofs.Identity
import CommandTree.Tree.Index

/-!
Indexes of children. One is right for the children of a node if it lists their names and their arguments
in their order, and none of them is a root. Main statements: inserting, merging, copying, building and
removing by the indexes do what is done without them, leave every index right, and change no index of
another node.
-/

namespace CommandTree

open scoped List

variable {S C M : Type}

namespace Tree

/-- What an index knows of a child. -/
def label (t : Tree S C M) : NodeId × Kind S := (t.id, t.traits.kind)

theorem map_label_of {cs ds : List (Tree S C M)} (h : cs.map label = ds.map label) {α : Type}
    (f : NodeId × Kind S → α) : (cs.map fun c => f c.label) = ds.map fun d => f d.label := by
  simpa [Function.comp_def] using congrArg (List.map f) h

theorem filter_isArgument (cs : List (Tree S C M)) :
    (cs.filter isArgument).map id =
      ((cs.map label).filter fun l => l.2.isArgument).map Prod.fst := by
  rw [List.filter_map, List.map_map]
  rfl

end Tree

namespace Index

/-- An index is right for the children of a node, and none of them is a root. -/
structure Describes (x : Index) (cs : List (Tree S C M)) : Prop where
  byName : x.byName = cs.map fun c => (c.name, c.id)
  arguments : x.arguments = (cs.filter Tree.isArgument).map Tree.id
  literals : ∀ c ∈ cs, c.isLiteral = true → x.hasLiterals = true
  noRoot : ∀ c ∈ cs, c.isRoot = false

variable {x : Index} {cs ds : List (Tree S C M)} {c : Tree S C M}

theorem describes_empty : Describes .empty ([] : List (Tree S C M)) :=
  ⟨rfl, rfl, by simp, by simp⟩

/-- Only the identities and the kinds of the children matter. -/
theorem Describes.congr (h : x.Describes cs) (hlabel : cs.map Tree.label = ds.map Tree.label) :
    x.Describes ds := by
  have hsame : ∀ d ∈ ds, ∃ c ∈ cs, c.label = d.label := fun d hd => by
    obtain ⟨c, hc, hcd⟩ := List.mem_map.mp (hlabel ▸ List.mem_map_of_mem hd)
    exact ⟨c, hc, hcd⟩
  refine ⟨?_, ?_, fun d hd hl => ?_, fun d hd => ?_⟩
  · rw [h.byName]
    exact Tree.map_label_of hlabel fun l => (l.2.tag.name, l.1)
  · rw [h.arguments, Tree.filter_isArgument, hlabel, Tree.filter_isArgument]
  · obtain ⟨c, hc, hcd⟩ := hsame d hd
    have hkind : c.traits.kind = d.traits.kind := congrArg Prod.snd hcd
    exact h.literals c hc (by rwa [Tree.isLiteral, hkind])
  · obtain ⟨c, hc, hcd⟩ := hsame d hd
    have hkind : c.traits.kind = d.traits.kind := congrArg Prod.snd hcd
    have hroot := h.noRoot c hc
    rwa [Tree.isRoot, hkind] at hroot

/-- A name is found where it leads to a child. -/
theorem Describes.find?_eq (h : x.Describes cs) (n : Text) :
    x.find? n = (cs.find? fun c => c.name = n).map Tree.id := by
  rw [Index.find?, h.byName]
  clear h
  induction cs with
  | nil => rfl
  | cons c cs ih =>
    rw [List.map_cons, List.lookup_cons, List.find?_cons, ih]
    by_cases hc : c.name = n
    · simp [hc]
    · simp [hc, beq_false_of_ne (Ne.symm hc)]

theorem Describes.insert (h : x.Describes cs) (hnew : ∀ d ∈ cs, d.name ≠ c.name)
    (hc : c.isRoot = false) : (x.insert c).Describes (cs ++ [c]) := by
  have hnone : x.find? c.name = none := by
    rw [h.find?_eq, Option.map_eq_none_iff, List.find?_eq_none]
    simpa using hnew
  refine ⟨?_, ?_, fun d hd hl => ?_, fun d hd => ?_⟩
  · simp [Index.insert, hnone, h.byName]
  · rw [List.filter_append, List.map_append, ← h.arguments]
    cases harg : c.isArgument <;> simp [Index.insert, harg]
  · rcases List.mem_append.mp hd with hd | hd
    · simp [Index.insert, h.literals d hd hl]
    · obtain rfl := List.mem_singleton.mp hd
      simp [Index.insert, hl]
  · rcases List.mem_append.mp hd with hd | hd
    · exact h.noRoot d hd
    · exact List.mem_singleton.mp hd ▸ hc

/-- Children with different names that are inserted one after another are in the index. -/
theorem describes_ofChildren (hnames : (cs.map Tree.name).Nodup) (hroots : ∀ c ∈ cs, c.isRoot = false) :
    (ofChildren cs).Describes cs := by
  induction cs using List.reverseRecOn with
  | nil => exact describes_empty
  | append_singleton cs c ih =>
    rw [List.map_append, List.nodup_append] at hnames
    obtain ⟨hcs, -, hne⟩ := hnames
    have hlast : ofChildren (cs ++ [c]) = (ofChildren cs).insert c := by simp [ofChildren]
    rw [hlast]
    refine (ih hcs fun d hd => hroots d (List.mem_append_left _ hd)).insert (fun d hd => ?_)
      (hroots c (by simp))
    exact hne _ (List.mem_map_of_mem hd) _ (by simp)

/-- Striking out a child leaves the others. -/
theorem Describes.remove (h : x.Describes cs) (hids : (cs.map Tree.id).Nodup)
    (hnames : (cs.map Tree.name).Nodup) (hc : c ∈ cs) :
    (x.remove c.name c.id).Describes (cs.filter fun d => d.name ≠ c.name) := by
  have hboth : ∀ d ∈ cs, (d.name ≠ c.name ↔ d.id ≠ c.id) := by
    intro d hd
    constructor
    · rintro hne hid
      exact hne (congrArg Tree.name (List.inj_on_of_nodup_map hids hd hc hid))
    · rintro hne hname
      exact hne (congrArg Tree.id (List.inj_on_of_nodup_map hnames hd hc hname))
  refine ⟨?_, ?_, fun d hd => h.literals d (List.mem_of_mem_filter hd),
    fun d hd => h.noRoot d (List.mem_of_mem_filter hd)⟩
  · rw [Index.remove, h.byName, List.filter_map]
    rfl
  · rw [Index.remove, h.arguments, List.filter_map, List.filter_filter, List.filter_filter]
    refine congrArg (List.map Tree.id) (List.filter_congr fun d hd => ?_)
    simp [hboth d hd, Bool.and_comm]

end Index

namespace Tree

/-- Every node of a tree has a right index. -/
def Indexed (nodes : Indexes) (t : Tree S C M) : Prop :=
  ∀ u, t.Has u → (nodes u.id).Describes u.children

/-- No node of a tree has a root as a child. -/
def NoRootBelow (t : Tree S C M) : Prop := ∀ u, t.Has u → ∀ c ∈ u.children, c.isRoot = false

variable {nodes nodes' : Indexes} {t : Tree S C M}

theorem indexed_iff :
    t.Indexed nodes ↔ (nodes t.id).Describes t.children ∧ ∀ c ∈ t.children, c.Indexed nodes := by
  constructor
  · exact fun h => ⟨h t .top, fun c hc u hu => h u ((Has.child .top hc).trans hu)⟩
  · rintro ⟨ht, hcs⟩ u hu
    rcases has_iff.mp hu with rfl | ⟨c, hc, hcu⟩
    · exact ht
    · exact hcs c hc u hcu

/-- Only the indexes of the tree's own nodes matter. -/
theorem Indexed.congr (h : t.Indexed nodes) (hsame : ∀ j ∈ t.ids, nodes' j = nodes j) :
    t.Indexed nodes' := fun u hu => by
  rw [hsame u.id hu.id_mem]
  exact h u hu

theorem Indexed.noRootBelow (h : t.Indexed nodes) : t.NoRootBelow := fun u hu => (h u hu).noRoot

theorem NoRootBelow.child {c : Tree S C M} (h : t.NoRootBelow) (hc : c ∈ t.children) :
    c.NoRootBelow := fun u hu => h u ((Has.child .top hc).trans hu)

theorem isRoot_copy (step : Nat) (t : Tree S C M) : (t.copy step).isRoot = t.isRoot := by
  simp [isRoot]

theorem ids_eq_map_copyAll (step : Nat) (cs : List (Tree S C M)) :
    idsOf (copyAll step cs) = (idsOf cs).map (step :: ·) := by
  rw [copyAll_eq_map, idsOf, idsOf, List.flatMap_map, List.map_flatMap]
  exact congrArg (List.flatMap · cs) (funext (ids_copy step))

theorem Among.ids_sublist {ts : List (Tree S C M)} (h : Among ts t) : t.ids <+ idsOf ts := by
  obtain ⟨u, hu, hut⟩ := h
  exact hut.ids_sublist.trans (ids_sublist_idsOf hu)

theorem nodup_map_id {cs : List (Tree S C M)} (h : (idsOf cs).Nodup) : (cs.map id).Nodup := by
  have hsub : cs.map id <+ idsOf cs := by
    induction cs with
    | nil => exact List.Sublist.refl _
    | cons c cs ih =>
      rw [idsOf_cons, ids_eq, List.map_cons, List.cons_append]
      exact ((ih (List.nodup_append.mp h).2.1).trans (List.sublist_append_right _ _)).cons_cons _
  exact h.sublist hsub

/-- What is put in the place of a node keeps what indexes know of the top of a tree. -/
theorem label_replaceAt {u new : Tree S C M} {i : NodeId} (hlabel : u.id = i → new.label = u.label) :
    (replaceAt i u new).label = u.label := by
  cases u
  rw [replaceAt]
  split
  · rename_i hi
    exact hlabel hi
  · rfl

/-- The tree that is put in the place of a node has right indexes, and the nodes outside keep theirs. -/
theorem indexed_replaceAtAll_of {ts : List (Tree S C M)} {t new : Tree S C M} (ht : Among ts t)
    (hids : (idsOf ts).Nodup) (hts : ∀ u ∈ ts, u.Indexed nodes)
    (hput : ∀ u ∈ ts, u.Has t → (replaceAt t.id u new).Indexed nodes')
    (hsame : ∀ j ∈ idsOf ts, j ∉ t.ids → nodes' j = nodes j) :
    ∀ u ∈ replaceAtAll t.id ts new, u.Indexed nodes' := by
  obtain ⟨before, v, after, rfl, hvt, -, hreplaced⟩ := replaceAtAll_split ht hids
  rw [hreplaced]
  have hv : v ∈ before ++ v :: after := by simp
  have hother : ∀ u ∈ before ++ after, u.Indexed nodes' := by
    intro u hu
    have hmem : u ∈ before ++ v :: after := by
      rw [List.mem_append, List.mem_cons]
      exact (List.mem_append.mp hu).imp_right .inr
    refine (hts u hmem).congr fun j hj => hsame j ((ids_sublist_idsOf hmem).subset hj) fun hjt => ?_
    obtain rfl := eq_of_common_id hids hmem hv hj (hvt.ids_sublist.subset hjt)
    rw [idsOf_append, idsOf_cons] at hids
    obtain ⟨-, hrest, hdisjoint⟩ := List.nodup_append.mp hids
    rcases List.mem_append.mp hu with hu | hu
    · exact hdisjoint _ ((ids_sublist_idsOf hu).subset hj) _ (List.mem_append_left _ hj) rfl
    · exact (List.nodup_append.mp hrest).2.2 _ hj _ ((ids_sublist_idsOf hu).subset hj) rfl
  intro u hu
  rcases List.mem_append.mp hu with hu | hu
  · exact hother u (List.mem_append_left _ hu)
  · rcases List.mem_cons.mp hu with rfl | hu
    · exact hput v hv hvt
    · exact hother u (List.mem_append_right _ hu)

theorem Indexed.replaceAt {u t new : Tree S C M} (hu : u.Indexed nodes) (hids : u.ids.Nodup)
    (ht : u.Has t) (hnew : new.Indexed nodes') (hlabel : new.label = t.label)
    (hsame : ∀ j ∈ u.ids, j ∉ t.ids → nodes' j = nodes j) :
    (replaceAt t.id u new).Indexed nodes' := by
  induction u with
  | node i traits cs ih =>
    rw [Tree.replaceAt]
    split
    · exact hnew
    · rename_i hi
      rw [ids_node] at hids hsame
      obtain ⟨htop, hcs⟩ := List.nodup_cons.mp hids
      obtain ⟨hindex, hbelow⟩ := indexed_iff.mp hu
      have hamong : Among cs t := by
        rcases has_iff.mp ht with rfl | h
        · exact absurd rfl hi
        · exact h
      have hit : i ∉ t.ids := fun hmem => by
        obtain ⟨c, hc, hct⟩ := hamong
        exact htop ((ids_sublist_idsOf hc).subset (hct.ids_sublist.subset hmem))
      refine indexed_iff.mpr ⟨?_, ?_⟩
      · rw [id_node, hsame i List.mem_cons_self hit, children_node, replaceAtAll_eq_map]
        refine hindex.congr ?_
        rw [children_node, List.map_map]
        refine (List.map_congr_left fun c hc => label_replaceAt fun hct => ?_).symm
        -- Only the node itself has its identity.
        obtain ⟨d, hd, hdt⟩ := hamong
        obtain rfl := eq_of_common_id hcs hc hd (hct ▸ Has.top.id_mem) hdt.id_mem
        rcases has_iff.mp hdt with rfl | ⟨e, he, het⟩
        · exact hlabel
        · have hdup := hcs.sublist (ids_sublist_idsOf hc)
          rw [ids_eq, List.nodup_cons] at hdup
          exact absurd (mem_idsOf_iff.mpr ⟨e, he, hct ▸ het.id_mem⟩) hdup.1
      · exact indexed_replaceAtAll_of hamong hcs hbelow
          (fun c hc hct => ih c hc (hbelow c hc) (hcs.sublist (ids_sublist_idsOf hc)) hct fun j hj =>
            hsame j (List.mem_cons_of_mem i ((ids_sublist_idsOf hc).subset hj)))
          fun j hj => hsame j (List.mem_cons_of_mem i hj)

theorem indexed_replaceAtAll {ts : List (Tree S C M)} {t new : Tree S C M} (ht : Among ts t)
    (hids : (idsOf ts).Nodup) (hts : ∀ u ∈ ts, u.Indexed nodes) (hnew : new.Indexed nodes')
    (hlabel : new.label = t.label) (hsame : ∀ j ∈ idsOf ts, j ∉ t.ids → nodes' j = nodes j) :
    ∀ u ∈ replaceAtAll t.id ts new, u.Indexed nodes' :=
  indexed_replaceAtAll_of ht hids hts
    (fun u hu hut => (hts u hu).replaceAt (hids.sublist (ids_sublist_idsOf hu)) hut hnew hlabel
      fun j hj => hsame j ((ids_sublist_idsOf hu).subset hj)) hsame

end Tree

namespace Brood

variable {step : Nat}

/-- No copy of a node of a source is among some nodes. -/
def Clear (step : Nat) (source olds : List NodeId) : Prop := ∀ k ∈ source, step :: k ∉ olds

/-- The indexes of all nodes are as they were, but for some nodes and copies of a source. -/
def Keeps (step : Nat) (olds source : List NodeId) (nodes nodes' : Indexes) : Prop :=
  ∀ j, j ∉ olds → (∀ k ∈ source, j ≠ step :: k) → nodes' j = nodes j

theorem Keeps.indexed {olds source : List NodeId} {nodes nodes' : Indexes} {t : Tree S C M}
    (h : Keeps step olds source nodes nodes') (ht : t.Indexed nodes) (holds : ∀ j ∈ t.ids, j ∉ olds)
    (hsource : Clear step source t.ids) : t.Indexed nodes' :=
  ht.congr fun j hj => h j (holds j hj) fun k hk heq => hsource k hk (heq ▸ hj)

theorem nodup_of_adds {source olds news : List NodeId} (h : Tree.Adds step source olds news)
    (hsource : source.Nodup) (holds : olds.Nodup) (hclear : Clear step source olds) :
    news.Nodup := by
  obtain ⟨added, hadded, hnews⟩ := h
  refine Tree.nodup_of_subperm hnews (List.nodup_append.mpr ⟨holds, ?_, ?_⟩)
  · exact (Tree.nodup_of_subperm hadded hsource).map fun i j hij => List.tail_eq_of_cons_eq hij
  · rintro i hi _ hj rfl
    obtain ⟨k, hk, rfl⟩ := List.mem_map.mp hj
    exact hclear k (hadded.subset hk) hi

theorem mem_of_adds {source olds news : List NodeId} (h : Tree.Adds step source olds news)
    {j : NodeId} (hj : j ∈ news) : j ∈ olds ∨ ∃ k ∈ source, j = step :: k := by
  obtain ⟨added, hadded, hnews⟩ := h
  rcases List.mem_append.mp (hnews.subset hj) with hj | hj
  · exact .inl hj
  · obtain ⟨k, hk, rfl⟩ := List.mem_map.mp hj
    exact .inr ⟨k, hadded.subset hk, rfl⟩

/-! Copies -/

theorem copiedAll_spec (step : Nat) (nodes : Indexes) {cs : List (Tree S C M)} (hids : (Tree.idsOf cs).Nodup)
    (hcs : ∀ c ∈ cs, ∀ nodes, (c.copy step).Indexed (copied step nodes c) ∧
      Keeps step [] c.ids nodes (copied step nodes c)) :
    (∀ c ∈ cs, (c.copy step).Indexed (copiedAll step nodes cs)) ∧
      Keeps step [] (Tree.idsOf cs) nodes (copiedAll step nodes cs) := by
  induction cs generalizing nodes with
  | nil => exact ⟨by simp, fun j _ _ => rfl⟩
  | cons c cs ih =>
    obtain ⟨hc, hcs⟩ := List.forall_mem_cons.mp hcs
    rw [Tree.idsOf_cons] at hids ⊢
    obtain ⟨-, hrest, hdisjoint⟩ := List.nodup_append.mp hids
    obtain ⟨hfirst, hkeep⟩ := hc nodes
    obtain ⟨hlater, hkeep'⟩ := ih (copied step nodes c) hrest hcs
    rw [copiedAll]
    refine ⟨List.forall_mem_cons.mpr ⟨?_, hlater⟩, fun j _ hj => ?_⟩
    · refine hkeep'.indexed hfirst (fun j _ => List.not_mem_nil) fun k hk hmem => ?_
      rw [Tree.ids_copy] at hmem
      obtain ⟨k', hk', heq⟩ := List.mem_map.mp hmem
      exact hdisjoint k' hk' k hk (List.tail_eq_of_cons_eq heq)
    · rw [hkeep' j List.not_mem_nil fun k hk => hj k (List.mem_append_right _ hk)]
      exact hkeep j List.not_mem_nil fun k hk => hj k (List.mem_append_left _ hk)

/-- A copy has right indexes, and no others have changed. -/
theorem copied_spec (step : Nat) (nodes : Indexes) {t : Tree S C M} (ht : t.NamesDistinct)
    (hroots : t.NoRootBelow) (hids : t.ids.Nodup) :
    (t.copy step).Indexed (copied step nodes t) ∧ Keeps step [] t.ids nodes (copied step nodes t) := by
  induction t generalizing nodes with
  | node i traits cs ih =>
    rw [Tree.ids_node] at hids
    obtain ⟨hi, hcs⟩ := List.nodup_cons.mp hids
    have hnames : ((Tree.copyAll step cs).map Tree.name).Nodup := by
      simpa [Tree.copyAll_eq_map, Function.comp_def] using ht.nodup
    have hcopies : ∀ c ∈ Tree.copyAll step cs, c.isRoot = false := by
      rw [Tree.copyAll_eq_map]
      intro d hd
      obtain ⟨c, hc, rfl⟩ := List.mem_map.mp hd
      exact (Tree.isRoot_copy step c).trans (hroots _ .top c hc)
    obtain ⟨hbelow, hkeep⟩ := copiedAll_spec step
      (Function.update nodes (step :: i) (.ofChildren (Tree.copyAll step cs))) hcs
      fun c hc nodes => ih c hc nodes (ht.child hc) (hroots.child hc)
        (hcs.sublist (Tree.ids_sublist_idsOf hc))
    rw [copied, Tree.copy]
    refine ⟨Tree.indexed_iff.mpr ⟨?_, ?_⟩, fun j _ hj => ?_⟩
    · have htop := hkeep (step :: i) List.not_mem_nil fun k hk heq =>
        hi (List.tail_eq_of_cons_eq heq ▸ hk)
      rw [Tree.id_node, htop, Function.update_self]
      exact Index.describes_ofChildren hnames hcopies
    · intro d hd
      rw [Tree.children_node, Tree.copyAll_eq_map] at hd
      obtain ⟨c, hc, rfl⟩ := List.mem_map.mp hd
      exact hbelow c hc
    · rw [Tree.ids_node] at hj
      rw [hkeep j List.not_mem_nil fun k hk => hj k (List.mem_cons_of_mem i hk)]
      exact Function.update_of_ne (hj i List.mem_cons_self) _ _

/-! Merging -/

variable {b : Brood S C M} {c : Tree S C M}

/-- The index is right for the children, and so are the indexes below them. -/
structure Right (b : Brood S C M) : Prop where
  index : b.index.Describes b.children
  below : ∀ c ∈ b.children, c.Indexed b.nodes

theorem meet_of_new (hb : b.Right) {name : Text} (hnew : ∀ d ∈ b.children, d.name ≠ name)
    (new : Brood S C M) (change : Tree S C M → Tree S C M × Indexes) :
    b.meet name new change = new := by
  have hnone : b.index.find? name = none := by
    rw [hb.index.find?_eq, Option.map_eq_none_iff, List.find?_eq_none]
    simpa using hnew
  rw [meet, hnone]

/-- The child that the index has under a name is the one that has the name. -/
theorem meet_of_named (hb : b.Right) (hnames : (b.children.map Tree.name).Nodup)
    (hids : (b.children.map Tree.id).Nodup) {before after : List (Tree S C M)} {d : Tree S C M}
    (hsplit : b.children = before ++ d :: after) (new : Brood S C M)
    (change : Tree S C M → Tree S C M × Indexes) :
    b.meet d.name new change = ⟨before ++ (change d).1 :: after, b.index, (change d).2⟩ := by
  have hd : d ∈ b.children := by simp [hsplit]
  have hfound : b.index.find? d.name = some d.id := by
    rw [hb.index.find?_eq, (Tree.find?_key_eq_some_iff hnames).mpr ⟨hd, rfl⟩, Option.map_some]
  have hchild : b.children.find? (fun e => e.id = d.id) = some d :=
    (Tree.find?_key_eq_some_iff hids).mpr ⟨hd, rfl⟩
  have hother : ∀ e ∈ before ++ after, e.id ≠ d.id := by
    rw [hsplit, List.map_append, List.map_cons, List.nodup_middle, ← List.map_append] at hids
    exact fun e he hid => (List.nodup_cons.mp hids).1 (hid ▸ List.mem_map_of_mem he)
  have hkeep : ∀ es ⊆ before ++ after,
      (es.map fun e => if e.id = d.id then (change d).1 else e) = es := fun es hes =>
    (List.map_congr_left fun e he => if_neg (hother e (hes he))).trans (List.map_id es)
  simp only [meet, hfound, hchild]
  rw [hsplit, List.map_append, List.map_cons, if_pos rfl, hkeep before (by simp),
    hkeep after (by simp)]

/-- Merging a tree by the indexes does what is done without them, and leaves the indexes of the outcome
right. -/
def Absorbs (step : Nat) (c : Tree S C M) : Prop :=
  ∀ (nodes : Indexes) (e : Tree S C M), e.NamesDistinct → e.ids.Nodup → Clear step c.ids e.ids →
    e.Indexed nodes →
      (absorb step nodes e c).1 = Tree.absorb step e c ∧
        (Tree.absorb step e c).Indexed (absorb step nodes e c).2 ∧
        Keeps step e.ids c.ids nodes (absorb step nodes e c).2

/-- Children become others, for which all indexes are right; indexes of other nodes than the children, those
below them and copies of a source are as they were. -/
structure Becomes (step : Nat) (source : List NodeId) (b : Brood S C M) (cs : List (Tree S C M))
    (b' : Brood S C M) : Prop where
  children : b'.children = cs
  right : b'.Right
  keeps : Keeps step (Tree.idsOf b.children) source b.nodes b'.nodes

/-- A tree meets the children: it is merged into the one that has its name, or else a tree is put in for
it. -/
theorem meet_spec (hb : b.Right) (hsib : Tree.Siblings b.children)
    (hids : (Tree.idsOf b.children).Nodup) (hclear : Clear step c.ids (Tree.idsOf b.children))
    (habsorb : Absorbs step c) {new : Brood S C M} {t : Tree S C M}
    (hnew : (∀ d ∈ b.children, d.name ≠ c.name) →
      b.Becomes step c.ids (b.children ++ [t]) new) :
    b.Becomes step c.ids (Tree.graft step b.children c t)
      (b.meet c.name new fun d => absorb step b.nodes d c) := by
  rcases Tree.graft_cases step c t hsib.nodup with
    ⟨-, before, d, after, hsplit, hname, hgraft⟩ | ⟨-, hnone, hgraft⟩
  · have hd : d ∈ b.children := by simp [hsplit]
    have hdids : d.ids <+ Tree.idsOf b.children := Tree.ids_sublist_idsOf hd
    obtain ⟨heq, hindexed, hkeep⟩ := habsorb b.nodes d (hsib.below d hd) (hids.sublist hdids)
      (fun k hk hmem => hclear k hk (hdids.subset hmem)) (hb.below d hd)
    have hmeet := meet_of_named hb hsib.nodup (Tree.nodup_map_id hids) hsplit new
      fun d => absorb step b.nodes d c
    rw [hname, heq] at hmeet
    -- The other children have no node in common with the one that is changed.
    have hother : ∀ e ∈ before ++ after, e.Indexed (absorb step b.nodes d c).2 := by
      intro e he
      have hmem : e ∈ b.children := by
        rw [hsplit, List.mem_append, List.mem_cons]
        exact (List.mem_append.mp he).imp_right .inr
      refine hkeep.indexed (hb.below e hmem) (fun j hj hjd => ?_) fun k hk hcopy =>
        hclear k hk ((Tree.ids_sublist_idsOf hmem).subset hcopy)
      obtain rfl := Tree.eq_of_common_id hids hmem hd hj hjd
      have hnodup : (before ++ e :: after).Nodup := hsplit ▸ hsib.nodup.of_map _
      exact (List.nodup_cons.mp (List.nodup_middle.mp hnodup)).1 he
    rw [hmeet, hgraft]
    refine ⟨rfl, ⟨?_, fun e he => ?_⟩, fun j hj hj' => ?_⟩
    · refine hb.index.congr ?_
      rw [hsplit]
      simp [Tree.label]
    · rcases List.mem_append.mp he with he | he
      · exact hother e (List.mem_append_left _ he)
      · rcases List.mem_cons.mp he with rfl | he
        · exact hindexed
        · exact hother e (List.mem_append_right _ he)
    · exact hkeep j (fun hjd => hj (hdids.subset hjd)) hj'
  · rw [meet_of_new hb hnone, hgraft]
    exact hnew hnone

/-- A copy that becomes the last child. -/
theorem insertCopy_spec (hb : b.Right) (hclear : Clear step c.ids (Tree.idsOf b.children))
    (hc : c.NamesDistinct) (hroots : c.NoRootBelow) (hroot : c.isRoot = false) (hids : c.ids.Nodup)
    (hnone : ∀ d ∈ b.children, d.name ≠ c.name) :
    b.Becomes step c.ids (b.children ++ [c.copy step]) (b.insertCopy step c) := by
  obtain ⟨hcopy, hkeep⟩ := copied_spec step b.nodes hc hroots hids
  refine ⟨rfl, ⟨?_, fun e he => ?_⟩, fun j _ hj => hkeep j List.not_mem_nil hj⟩
  · exact hb.index.insert (by simpa using hnone) ((Tree.isRoot_copy step c).trans hroot)
  · rcases List.mem_append.mp he with he | he
    · exact hkeep.indexed (hb.below e he) (fun j _ => List.not_mem_nil) fun k hk hmem =>
        hclear k hk ((Tree.ids_sublist_idsOf he).subset hmem)
    · obtain rfl := List.mem_singleton.mp he
      exact hcopy

theorem absorbAll_spec {cs : List (Tree S C M)} (hb : b.Right) (hsib : Tree.Siblings b.children)
    (hids : (Tree.idsOf b.children).Nodup) (hclear : Clear step (Tree.idsOf cs) (Tree.idsOf b.children))
    (hcs : (Tree.idsOf cs).Nodup)
    (hall : ∀ c ∈ cs, c.NamesDistinct ∧ c.NoRootBelow ∧ c.isRoot = false ∧ Absorbs step c) :
    b.Becomes step (Tree.idsOf cs) (Tree.absorbAll step b.children cs) (absorbAll step b cs) := by
  induction cs generalizing b with
  | nil => exact ⟨rfl, hb, fun j _ _ => rfl⟩
  | cons c cs ih =>
    obtain ⟨⟨hc, hroots, hroot, habsorb⟩, hall⟩ := List.forall_mem_cons.mp hall
    rw [Tree.idsOf_cons] at hclear hcs ⊢
    obtain ⟨hcids, hrest, hdisjoint⟩ := List.nodup_append.mp hcs
    have hclear₁ : Clear step c.ids (Tree.idsOf b.children) := fun k hk =>
      hclear k (List.mem_append_left _ hk)
    obtain ⟨hchildren, hright, hkeep⟩ := meet_spec hb hsib hids hclear₁ habsorb
      (insertCopy_spec hb hclear₁ hc hroots hroot hcids)
    obtain ⟨hsib', hadds⟩ := Tree.graft_spec hsib hc (Tree.absorb_spec step hc)
    rw [absorbAll]
    generalize b.meet c.name (b.insertCopy step c) (fun d => absorb step b.nodes d c) = b' at *
    rw [← hchildren] at hsib' hadds
    have hclear' : Clear step (Tree.idsOf cs) (Tree.idsOf b'.children) := by
      intro k hk hmem
      rcases mem_of_adds hadds hmem with hold | ⟨k', hk', heq⟩
      · exact hclear k (List.mem_append_right _ hk) hold
      · exact hdisjoint k' hk' k hk (List.tail_eq_of_cons_eq heq).symm
    obtain ⟨hchildren', hright', hkeep'⟩ := ih hright hsib'
      (nodup_of_adds hadds hcids hids hclear₁) hclear' hrest hall
    refine ⟨?_, hright', fun j hj hj' => ?_⟩
    · rw [hchildren', hchildren]
      rfl
    · have hout : j ∉ Tree.idsOf b'.children := by
        intro hmem
        rcases mem_of_adds hadds hmem with hold | ⟨k, hk, heq⟩
        · exact hj hold
        · exact hj' k (List.mem_append_left _ hk) heq
      rw [hkeep' j hout fun k hk => hj' k (List.mem_append_right _ hk)]
      exact hkeep j hj fun k hk => hj' k (List.mem_append_left _ hk)

theorem absorb_spec {i : Tree S C M} (hi : i.NamesDistinct) (hroots : i.NoRootBelow)
    (hids : i.ids.Nodup) : Absorbs step i := by
  induction i with
  | node id traits cs ih =>
    intro nodes e he heids hclear hindexed
    rw [Tree.ids_node] at hids hclear
    have hcs := (List.nodup_cons.mp hids).2
    obtain ⟨htop, hbelow⟩ := Tree.indexed_iff.mp hindexed
    have hchildren : (Tree.absorb step e (.node id traits cs)).children =
        Tree.absorbAll step e.children cs := by cases e; rfl
    rw [Tree.ids_eq e] at heids
    obtain ⟨htopid, hbelowids⟩ := List.nodup_cons.mp heids
    have hclear₁ : Clear step (Tree.idsOf cs) (Tree.idsOf e.children) := fun k hk hmem =>
      hclear k (List.mem_cons_of_mem id hk) (by rw [Tree.ids_eq]; exact List.mem_cons_of_mem _ hmem)
    have hchildrenRight : Right ⟨e.children, nodes e.id, nodes⟩ := ⟨htop, hbelow⟩
    have hspec := absorbAll_spec hchildrenRight
      (Tree.namesDistinct_iff.mp he) hbelowids hclear₁ hcs fun c hc =>
        ⟨hi.child hc, hroots.child hc, hroots _ .top c hc,
          ih c hc (hi.child hc) (hroots.child hc) (hcs.sublist (Tree.ids_sublist_idsOf hc))⟩
    have hadds : Tree.Adds step (Tree.idsOf cs) (Tree.idsOf e.children)
        (Tree.idsOf (Tree.absorbAll step e.children cs)) := by
      rw [Tree.absorbAll_eq_foldl]
      exact (Tree.foldl_graft_spec (Tree.namesDistinct_iff.mp he) (fun c hc => hi.child hc)
        fun c hc => Tree.absorb_spec step (hi.child hc)).2
    rw [absorb]
    obtain ⟨hbrood, hright, hkeep⟩ := hspec
    generalize absorbAll step ⟨e.children, nodes e.id, nodes⟩ cs = b at hbrood hright hkeep
    dsimp only at hbrood hkeep ⊢
    refine ⟨?_, Tree.indexed_iff.mpr ⟨?_, fun c hc => ?_⟩, fun j hj hj' => ?_⟩
    · rw [hbrood]
      cases e
      rfl
    · rw [Tree.id_absorb, Function.update_self, hchildren, ← hbrood]
      exact hright.index
    · rw [hchildren, ← hbrood] at hc
      refine (hright.below c hc).congr fun j hj => Function.update_of_ne ?_ _ _
      rintro rfl
      have hmem : e.id ∈ Tree.idsOf b.children := (Tree.ids_sublist_idsOf hc).subset hj
      rw [hbrood] at hmem
      rcases mem_of_adds hadds hmem with hold | ⟨k, hk, heq⟩
      · exact htopid hold
      · exact hclear k (List.mem_cons_of_mem id hk) (heq ▸ Tree.Has.top.id_mem)
    · rw [Tree.ids_eq, List.mem_cons, not_or] at hj
      rw [Function.update_of_ne hj.1]
      exact hkeep j hj.2 fun k hk => hj' k (by rw [Tree.ids_node]; exact List.mem_cons_of_mem id hk)

/-! Adding, building and removing -/

/-- Adding a child by the indexes does what is done without them. -/
theorem add_spec (step : Nat) (hb : b.Right) (hsib : Tree.Siblings b.children)
    (hids : (Tree.idsOf b.children).Nodup) (hclear : Clear step c.ids (Tree.idsOf b.children))
    (hc : c.NamesDistinct) (hcids : c.ids.Nodup) (hindexed : c.Indexed b.nodes)
    (hroot : c.isRoot = false) :
    ∃ b', b.add step c = .ok b' ∧
      b.Becomes step c.ids (Tree.insertChild step b.children c) b' := by
  refine ⟨_, by rw [add, hroot]; rfl, ?_⟩
  rw [Tree.insertChild_eq_graft]
  refine meet_spec hb hsib hids hclear (absorb_spec hc hindexed.noRootBelow hcids) fun hnone =>
    ⟨rfl, ⟨hb.index.insert hnone hroot, fun e he => ?_⟩, fun j _ _ => rfl⟩
  rcases List.mem_append.mp he with he | he
  · exact hb.below e he
  · exact List.mem_singleton.mp he ▸ hindexed

theorem add_root (hroot : c.isRoot = true) : b.add step c = .error Tree.rootAsChild := by
  rw [add, hroot]
  rfl

/-- The children that are built are copies, one for each, none of which is merged. -/
theorem build_spec (step : Nat) (nodes : Indexes) {cs : List (Tree S C M)} (hsib : Tree.Siblings cs)
    (hids : (Tree.idsOf cs).Nodup) (hroots : ∀ c ∈ cs, c.isRoot = false ∧ c.NoRootBelow) :
    ∃ b, build step nodes cs = .ok b ∧ b.children = Tree.copyAll step cs ∧ b.Right ∧
      Keeps step [] (Tree.idsOf cs) nodes b.nodes := by
  induction cs using List.reverseRecOn with
  | nil => exact ⟨_, rfl, rfl, ⟨Index.describes_empty, by simp⟩, fun j _ _ => rfl⟩
  | append_singleton cs c ih =>
    have hnames := hsib.nodup
    rw [List.map_append, List.nodup_append] at hnames
    rw [Tree.idsOf_append, Tree.idsOf_cons, Tree.idsOf_nil, List.append_nil] at hids ⊢
    obtain ⟨hcsids, hcids, hdisjoint⟩ := List.nodup_append.mp hids
    have hbelow : ∀ d ∈ cs, d ∈ cs ++ [c] := fun d hd => List.mem_append_left _ hd
    have hlast : c ∈ cs ++ [c] := by simp
    obtain ⟨b, hbuild, hchildren, hright, hkeep⟩ := ih ⟨hnames.1, fun d hd => hsib.below d (hbelow d hd)⟩
      hcsids fun d hd => hroots d (hbelow d hd)
    obtain ⟨hroot, hnoRoot⟩ := hroots c hlast
    obtain ⟨hcopy, hkeep'⟩ := copied_spec step b.nodes (hsib.below c hlast) hnoRoot hcids
    have hnone : ∀ d ∈ b.children, d.name ≠ (c.copy step).name := by
      rw [hchildren, Tree.copyAll_eq_map, Tree.name_copy]
      intro d hd
      obtain ⟨d', hd', rfl⟩ := List.mem_map.mp hd
      rw [Tree.name_copy]
      exact hnames.2.2 _ (List.mem_map_of_mem hd') _ (by simp)
    have hold : ∀ d ∈ b.children, d.Indexed (copied step b.nodes c) := by
      intro d hd
      refine hkeep'.indexed (hright.below d hd) (fun j _ => List.not_mem_nil) fun k hk hmem => ?_
      have hmem' := (Tree.ids_sublist_idsOf hd).subset hmem
      rw [hchildren, Tree.ids_eq_map_copyAll] at hmem'
      obtain ⟨k', hk', heq⟩ := List.mem_map.mp hmem'
      exact hdisjoint k' hk' k hk (List.tail_eq_of_cons_eq heq)
    have hcopied : Right { b with nodes := copied step b.nodes c } := ⟨hright.index, hold⟩
    have hadd : add step { b with nodes := copied step b.nodes c } (c.copy step) =
        .ok (insert { b with nodes := copied step b.nodes c } (c.copy step)) := by
      rw [add, Tree.isRoot_copy, hroot, meet_of_new hcopied hnone]
      rfl
    refine ⟨insert { b with nodes := copied step b.nodes c } (c.copy step), ?_, ?_,
      ⟨hright.index.insert hnone ((Tree.isRoot_copy step c).trans hroot), fun e he => ?_⟩,
      fun j _ hj => ?_⟩
    · rw [build, List.foldlM_append]
      change (build step nodes cs >>= _) = _
      rw [hbuild]
      exact (bind_pure _).trans hadd
    · simp [insert, hchildren, Tree.copyAll_eq_map]
    · rcases List.mem_append.mp he with he | he
      · exact hold e he
      · exact List.mem_singleton.mp he ▸ hcopy
    · exact (hkeep' j List.not_mem_nil fun k hk => hj k (List.mem_append_right _ hk)).trans
        (hkeep j List.not_mem_nil fun k hk => hj k (List.mem_append_left _ hk))

/-- The child of an identity is the only one of its name. -/
theorem eraseP_eq_filter {cs : List (Tree S C M)} (hids : (cs.map Tree.id).Nodup)
    (hnames : (cs.map Tree.name).Nodup) (hc : c ∈ cs) :
    (cs.eraseP fun d => d.id = c.id) = cs.filter fun d => d.name ≠ c.name := by
  obtain ⟨before, after, rfl⟩ := List.append_of_mem hc
  have hother : ∀ {α : Type} (f : Tree S C M → α), ((before ++ c :: after).map f).Nodup →
      ∀ d ∈ before ++ after, f d ≠ f c := by
    intro α f hnodup d hd heq
    rw [List.map_append, List.map_cons, List.nodup_middle, ← List.map_append] at hnodup
    exact (List.nodup_cons.mp hnodup).1 (heq ▸ List.mem_map_of_mem hd)
  have hid := hother Tree.id hids
  have hname := hother Tree.name hnames
  have hkeep : ∀ ds ⊆ before ++ after, (ds.filter fun d => d.name ≠ c.name) = ds := fun ds hds =>
    List.filter_eq_self.mpr fun d hd => decide_eq_true (hname d (hds hd))
  rw [List.eraseP_append_right _ fun d hd => by simpa using hid d (List.mem_append_left _ hd),
    List.eraseP_cons_of_pos (by simp), List.filter_append, List.filter_cons_of_neg (by simp),
    hkeep before (by simp), hkeep after (by simp)]

/-- Removing a child by the index does what is done without it. -/
theorem remove_spec (hb : b.Right) (hnames : (b.children.map Tree.name).Nodup)
    (hids : (b.children.map Tree.id).Nodup) (name : Text) :
    (b.remove name).children = b.children.filter (fun c => c.name ≠ name) ∧ (b.remove name).Right ∧
      (b.remove name).nodes = b.nodes := by
  cases hfind : b.children.find? fun c => c.name = name with
  | none =>
    have hnone : b.index.find? name = none := by rw [hb.index.find?_eq, hfind, Option.map_none]
    have hall : b.children.filter (fun c => c.name ≠ name) = b.children := by
      rw [List.filter_eq_self]
      simpa using List.find?_eq_none.mp hfind
    rw [remove, hnone]
    exact ⟨hall.symm, hb, rfl⟩
  | some c =>
    obtain ⟨hc, rfl⟩ := (Tree.find?_key_eq_some_iff hnames).mp hfind
    have hsome : b.index.find? c.name = some c.id := by rw [hb.index.find?_eq, hfind, Option.map_some]
    have herase := eraseP_eq_filter hids hnames hc
    rw [remove, hsome]
    refine ⟨herase, ⟨?_, fun d hd => ?_⟩, rfl⟩
    · dsimp only
      rw [herase]
      exact hb.index.remove hids hnames hc
    · exact hb.below d (List.mem_of_mem_eraseP hd)

end Brood

end CommandTree
