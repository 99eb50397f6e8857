import CommandTree.Proofs.Identity

/-!
All that a host can do to a workbench, as calls that are made one after another: beginning and
changing builders, building and registering them, and moving, copying, adding and removing nodes.
Main statement: whatever calls were made, the tree has a root without traits, no two nodes on the
workbench have the same identity, and no two siblings have the same name.
-/

namespace CommandTree

open scoped List

/-- A change of a builder by one call. Children are built from a builder that has a name, or are
loose nodes under a label. -/
inductive Change (S C M : Type)
  | command (command : C)
  | requirement (p : S → Except Fault Bool)
  | contextRequirement (p : Frame S → Reader → Except Fault Bool)
  | provider (provider : Provider S)
  | built (builder : Text)
  | loose (label : Text)
  | forward (target : Option Target) (modifier : Option M) (forks : Bool)

inductive Call (S C M : Type)
  /-- Begins a builder. -/
  | start (builder : Text) (kind : Kind S)
  | change (builder : Text) (change : Change S C M)
  /-- Builds a node and puts a label on it. -/
  | build (builder : Text) (label : Text)
  | clone (target : Target) (label : Text)
  /-- Builds a command into the tree. -/
  | register (builder : Text)
  /-- Adds a loose node to another node. -/
  | add (target : Target) (label : Text)
  | remove (target : Target) (name : Text)

namespace Change

variable {S C M : Type}

def setting : Change S C M → Setting S C M
  | command c => .command c
  | requirement p => .requirement p
  | contextRequirement p => .contextRequirement p
  | provider p => .provider p
  | built name => .child (.builder name)
  | loose label => .child (.loose label)
  | forward target modifier forks => .forward target modifier forks

end Change

namespace Builder

variable {S C M : Type}

/-- The builder with one more child. -/
def withChild (step : Nat) (b : Builder S C M) (c : Tree S C M) : Builder S C M :=
  { b with
    children := Tree.insertChild step b.children c
    absorbed := if Tree.anyNamed c.name b.children then b.absorbed ++ [c] else b.absorbed }

/-- Only a builder without children can be made to redirect. -/
theorem forward_ok {b b' : Builder S C M} {target : Option NodeId} {modifier : Option M}
    {forks : Bool} (h : b.forward target modifier forks = .ok b') :
    b.children = [] ∧ b'.children = b.children ∧ b'.absorbed = b.absorbed := by
  unfold forward at h
  split_ifs at h with hc
  cases h
  exact ⟨by simpa using hc, rfl, rfl⟩

end Builder

namespace Workbench

variable {S C M : Type}

/-- Puts a node aside under a label. -/
def putAside (w : Workbench S C M) (label : Text) (t : Tree S C M) : Workbench S C M :=
  (w.keep t).label label t.id

/-- Makes a call. One that fails may have changed the workbench. -/
def perform (w : Workbench S C M) : Call S C M → Work S C M Unit
  | .start name kind => (.ok (), w.store name (.ofKind kind))
  | .change name change => w.amend name [change.setting]
  | .build name label =>
    match w.named? name with
    | none => (.error noSuchNode, w)
    | some b => let (t, w) := w.build b; (.ok (), w.putAside label t)
  | .clone target label =>
    match w.locate target with
    | .error f => (.error f, w)
    | .ok id => let (t, w) := w.clone id; (.ok (), w.putAside label t)
  | .register name =>
    match w.named? name with
    | none => (.error noSuchNode, w)
    | some b => let ((outcome, w), _) := w.register b; (outcome.map fun _ => (), w)
  | .add target label =>
    match w.locate target with
    | .error f => (.error f, w)
    | .ok parent =>
      match w.take label with
      | (.error f, w) => (.error f, w)
      | (.ok t, w) => w.addChild parent t
  | .remove target name =>
    match w.locate target with
    | .error f => (.error f, w)
    | .ok parent => (.ok (), w.removeChild parent name)

/-- Makes calls one after another, also after one that fails. -/
def run (options : Options) (calls : List (Call S C M)) : Workbench S C M :=
  calls.foldl (fun w call => (w.perform call).2) (.ofOptions options)

theorem run_append_one (options : Options) (calls : List (Call S C M)) (call : Call S C M) :
    run options (calls ++ [call]) = ((run options calls).perform call).2 := by
  simp [run]

/-- What holds of an empty workbench and survives every call holds after any calls. -/
theorem run_induction {P : Workbench S C M → Prop} {options : Options}
    (start : P (.ofOptions options)) (call : ∀ w call, P w → P (w.perform call).2)
    (calls : List (Call S C M)) : P (run options calls) := by
  induction calls using List.reverseRecOn with
  | nil => exact start
  | append_singleton calls c ih =>
    rw [run_append_one]
    exact call _ c ih

/-- What is true of a workbench between calls. -/
structure Sound (w : Workbench S C M) : Prop where
  root_id : w.root.id = []
  root_traits : w.root.traits = .ofKind .root
  fresh : Tree.Fresh w.step (Tree.idsOf w.trees)
  names : ∀ t ∈ w.trees, t.NamesDistinct
  builders : ∀ p ∈ w.builders, (p.2.children.map Tree.name).Nodup

variable {w : Workbench S C M}

theorem sound_ofOptions (options : Options) : (ofOptions options : Workbench S C M).Sound where
  root_id := rfl
  root_traits := rfl
  fresh := by
    have hids : Tree.idsOf (ofOptions options : Workbench S C M).trees = [[]] := rfl
    rw [hids]
    exact ⟨List.nodup_singleton _, by simp⟩
  names := by
    intro t ht
    obtain rfl : t = .bare [] := by simpa [trees, ofOptions] using ht
    exact Tree.namesDistinct_bare []
  builders := by simp [ofOptions]

theorem Sound.ids (h : w.Sound) : (Tree.idsOf w.trees).Nodup := h.fresh.nodup

/-! Taking trees away and putting trees there -/

/-- A workbench with the same root and builders, and with trees that were there or are in order. -/
theorem Sound.of_trees {w' : Workbench S C M} (h : w.Sound) (hroot : w'.root = w.root)
    (hbuilders : w'.builders = w.builders) (hfresh : Tree.Fresh w'.step (Tree.idsOf w'.trees))
    (hnames : ∀ t ∈ w'.trees, t ∈ w.trees ∨ t.NamesDistinct) : w'.Sound where
  root_id := hroot ▸ h.root_id
  root_traits := hroot ▸ h.root_traits
  fresh := hfresh
  names := fun t ht => (hnames t ht).elim (h.names t) fun hd => hd
  builders := hbuilders ▸ h.builders

/-- A tree that is not on a workbench, and could be put there. -/
structure InHand (w : Workbench S C M) (c : Tree S C M) : Prop where
  sound : w.Sound
  fresh : Tree.Fresh w.step (Tree.idsOf (c :: w.trees))
  names : c.NamesDistinct

theorem InHand.keep {c : Tree S C M} (h : w.InHand c) : (w.keep c).Sound := by
  have hperm := trees_keep w c
  refine h.sound.of_trees rfl rfl ?_ fun t ht => ?_
  · exact h.fresh.subperm (hperm.flatMap_right Tree.ids).subperm
  · rcases List.mem_cons.mp (hperm.subset ht) with rfl | ht
    · exact .inr h.names
    · exact .inl ht

theorem InHand.putAside {c : Tree S C M} (h : w.InHand c) (label : Text) :
    (w.putAside label c).Sound :=
  let hk := h.keep
  ⟨hk.root_id, hk.root_traits, hk.fresh, hk.names, hk.builders⟩

/-- A copy is made of new nodes. -/
theorem Sound.inHand_copy (h : w.Sound) {t : Tree S C M} (hids : t.ids.Nodup)
    (ht : t.NamesDistinct) : InHand { w with step := w.step + 1 } (t.copy w.step) := by
  have hfresh : Tree.Fresh (w.step + 1) (Tree.idsOf (t.copy w.step :: w.trees)) := by
    refine h.fresh.adds hids ⟨t.ids, List.Subperm.refl _, ?_⟩
    rw [Tree.idsOf_cons, Tree.ids_copy]
    exact List.perm_append_comm.subperm
  refine ⟨h.of_trees rfl rfl ?_ fun t ht => .inl ht, hfresh, ht.copy w.step⟩
  exact hfresh.subperm (List.sublist_append_right _ _).subperm

/-- All else that is on a workbench than a builder. -/
def without (w : Workbench S C M) (name : Text) : Workbench S C M :=
  { w with builders := w.builders.filter fun (n, _) => n ≠ name }

theorem trees_store (w : Workbench S C M) (name : Text) (b : Builder S C M) :
    (w.store name b).trees ~ b.children ++ b.absorbed ++ (w.without name).trees := by
  exact List.perm_append_comm_assoc (w.root :: w.loose) (b.children ++ b.absorbed) _

theorem trees_without_sublist (w : Workbench S C M) (name : Text) :
    (w.without name).trees <+ w.trees :=
  (List.Sublist.refl (w.root :: w.loose)).append (List.filter_sublist.flatMap _)

@[simp] theorem named?_store (w : Workbench S C M) (name : Text) (b : Builder S C M) :
    (w.store name b).named? name = some b := List.lookup_cons_self

theorem named?_store_of_ne {n name : Text} (h : n ≠ name) (w : Workbench S C M) (b : Builder S C M) :
    (w.store name b).named? n = w.named? n := by
  have hfilter : ∀ l : List (Text × Builder S C M),
      (l.filter fun (m, _) => m ≠ name).lookup n = l.lookup n := by
    intro l
    induction l with
    | nil => rfl
    | cons p l ih =>
      obtain ⟨m, c⟩ := p
      by_cases hm : m = name
      · subst hm
        rw [List.filter_cons_of_neg (by simp), ih, List.lookup_cons, beq_false_of_ne h]
      · rw [List.filter_cons_of_pos (by simpa using hm), List.lookup_cons, List.lookup_cons, ih]
  rw [named?, store, List.lookup_cons, beq_false_of_ne h]
  exact hfilter w.builders

theorem mem_builders {name : Text} {b : Builder S C M} (h : w.named? name = some b) :
    (name, b) ∈ w.builders := by
  rw [named?, List.lookup_eq_some_iff] at h
  obtain ⟨before, after, hsplit, -⟩ := h
  simp [hsplit]

/-- A builder and all else are among what is on the workbench. -/
theorem held_subperm {name : Text} {b : Builder S C M} (h : w.named? name = some b) :
    b.children ++ b.absorbed ++ (w.without name).trees <+~ w.trees := by
  have hsub : (name, b) :: (w.builders.filter fun (n, _) => n ≠ name) <+~ w.builders := by
    obtain ⟨before, after, hsplit⟩ := List.append_of_mem (mem_builders h)
    have hfilter : (w.builders.filter fun (n, _) => n ≠ name) <+ before ++ after := by
      rw [hsplit, List.filter_append, List.filter_cons_of_neg (by simp)]
      exact List.filter_sublist.append List.filter_sublist
    refine (hfilter.cons_cons (name, b)).subperm.trans ?_
    rw [hsplit]
    exact List.perm_middle.symm.subperm
  refine (trees_store w name b).symm.subperm.trans ?_
  refine (List.subperm_append_left (w.root :: w.loose)).mpr ?_
  obtain ⟨l, hperm, hl⟩ := hsub
  exact ⟨_, hperm.flatMap_right _, hl.flatMap _⟩

theorem Sound.siblings (h : w.Sound) {name : Text} {b : Builder S C M}
    (hb : w.named? name = some b) : Tree.Siblings b.children where
  nodup := h.builders _ (mem_builders hb)
  below := fun c hc => h.names c ((held_subperm hb).subset (by simp [hc]))

/-- What a builder builds is new. -/
theorem Sound.inHand_build (h : w.Sound) {name : Text} {b : Builder S C M}
    (hb : w.named? name = some b) : InHand (w.build b).2 (w.build b).1 := by
  -- Building is copying a node with an identity that only the root has.
  have hids : (Tree.node [] b.toTraits b.children).ids.Nodup := by
    have hroot : b.children ++ [w.root] <+~ w.trees := by
      refine List.Subperm.trans ?_ (held_subperm hb)
      rw [List.append_assoc]
      refine (List.subperm_append_left _).mpr ?_
      exact (List.singleton_sublist.mpr (by simp [trees, without])).subperm
    have hsub := Tree.nodup_of_subperm (Tree.idsOf_subperm hroot) h.ids
    rw [Tree.idsOf_append, Tree.idsOf_cons, Tree.ids_eq, h.root_id] at hsub
    rw [Tree.ids_node, List.nodup_cons]
    obtain ⟨hc, -, hdisjoint⟩ := List.nodup_append.mp hsub
    exact ⟨fun hm => hdisjoint _ hm _ (by simp) rfl, hc⟩
  exact h.inHand_copy hids (Tree.namesDistinct_iff.mpr (h.siblings hb))

/-- A label leads to a node on the workbench, or to none. -/
theorem Sound.resolve_cases (h : w.Sound) (i : NodeId) :
    (Tree.Among w.trees (w.resolve i) ∧ (w.resolve i).id = i) ∨
      w.resolve i = .bare i ∧ i ∉ Tree.idsOf w.trees := by
  cases hf : w.find? i with
  | some t =>
    left
    rw [resolve, hf, Option.getD_some]
    exact (find?_eq_some_iff h.ids).mp hf
  | none =>
    refine .inr ⟨by rw [resolve, hf, Option.getD_none], fun hi => ?_⟩
    obtain ⟨u, hu, hiu⟩ := Tree.mem_idsOf_iff.mp hi
    obtain ⟨t, ht, hid⟩ := Tree.mem_ids_iff.mp hiu
    simp [(find?_eq_some_iff h.ids).mpr ⟨⟨u, hu, ht⟩, hid⟩] at hf

theorem Sound.namesDistinct (h : w.Sound) {t : Tree S C M} (ht : Tree.Among w.trees t) :
    t.NamesDistinct := by
  obtain ⟨u, hu, hut⟩ := ht
  exact fun v hv => h.names u hu v (hut.trans hv)

theorem Sound.inHand_clone (h : w.Sound) (i : NodeId) : InHand (w.clone i).2 (w.clone i).1 := by
  refine h.inHand_copy ?_ ?_ <;>
    rcases h.resolve_cases i with ⟨⟨u, hu, hut⟩, -⟩ | ⟨hbare, -⟩
  · have hsub : (w.resolve i).ids <+ u.ids := hut.ids_sublist
    have hu' : u.ids <+ Tree.idsOf w.trees := Tree.ids_sublist_idsOf hu
    exact h.ids.sublist (hsub.trans hu')
  · rw [hbare]
    exact List.nodup_singleton i
  · exact h.namesDistinct ⟨u, hu, hut⟩
  · rw [hbare]
    exact Tree.namesDistinct_bare i

theorem take_ok {label : Text} {c : Tree S C M} {w' : Workbench S C M}
    (ht : w.take label = (.ok c, w')) :
    c ∈ w.loose ∧ w' = { w with loose := w.loose.filter fun u => u.id ≠ c.id } := by
  unfold take at ht
  cases hl : w.labels.lookup label with
  | none => simp [hl] at ht
  | some i =>
    cases hf : w.loose.find? fun t => t.id = i with
    | none => simp [hl, hf] at ht
    | some t =>
      obtain ⟨rfl, rfl⟩ : t = c ∧ _ = w' := by simpa [hl, hf] using ht
      have hi : t.id = i := by simpa using List.find?_some hf
      exact ⟨List.mem_of_find?_eq_some hf, by simp [hi]⟩

theorem take_error {label : Text} {f : Fault} {w' : Workbench S C M}
    (ht : w.take label = (.error f, w')) : w' = w := by
  unfold take at ht
  cases hl : w.labels.lookup label with
  | none => simp_all
  | some i =>
    cases hf : w.loose.find? fun t => t.id = i with
    | none => simp_all
    | some t => simp [hl, hf] at ht

/-- A loose node that is taken is no longer on the workbench. -/
theorem take_subperm {label : Text} {c : Tree S C M} {w' : Workbench S C M}
    (ht : w.take label = (.ok c, w')) : c :: w'.trees <+~ w.trees := by
  obtain ⟨hc, rfl⟩ := take_ok ht
  have hsub : c :: (w.loose.filter fun u => u.id ≠ c.id) <+~ w.loose := by
    obtain ⟨before, after, hsplit⟩ := List.append_of_mem hc
    have hfilter : (w.loose.filter fun u => u.id ≠ c.id) <+ before ++ after := by
      rw [hsplit, List.filter_append, List.filter_cons_of_neg (by simp)]
      exact List.filter_sublist.append List.filter_sublist
    refine (hfilter.cons_cons c).subperm.trans ?_
    rw [hsplit]
    exact List.perm_middle.symm.subperm
  refine (List.Perm.swap w.root c _).subperm.trans ((List.subperm_cons w.root).mpr ?_)
  exact (List.subperm_append_right _).mpr hsub

theorem Sound.inHand_take (h : w.Sound) {label : Text} {c : Tree S C M} {w' : Workbench S C M}
    (ht : w.take label = (.ok c, w')) : InHand w' c := by
  have hall := take_subperm ht
  obtain ⟨-, rfl⟩ := take_ok ht
  have hfresh := h.fresh.subperm (Tree.idsOf_subperm hall)
  refine ⟨h.of_trees rfl rfl ?_ fun t ht => .inl ?_, hfresh, h.names c (hall.subset (by simp))⟩
  · exact hfresh.subperm (List.sublist_append_right _ _).subperm
  · exact hall.subset (List.mem_cons_of_mem c ht)

/-- Another tree in the place of a node, with the same traits. -/
theorem Sound.replace (h : w.Sound) {t : Tree S C M} (new : Tree S C M) {step : Nat}
    (ht : Tree.Among w.trees t) (hid : new.id = t.id) (htraits : new.traits = t.traits)
    (hnew : new.NamesDistinct)
    (hfresh : Tree.Fresh step (Tree.idsOf (w.replace t.id new).trees)) :
    Sound { w.replace t.id new with step } := by
  have hsame : ∀ u, Tree.Among w.trees u → u.id = t.id → u = t := fun u hu hut => by
    rw [← resolve_of_among h.ids hu, hut, resolve_of_among h.ids ht]
  have hname : ∀ u ∈ w.trees, (Tree.replaceAt t.id u new).NamesDistinct ∧
      (Tree.replaceAt t.id u new).name = u.name := fun u hu =>
    (h.names u hu).replaceAt hnew fun v hv hvt => by
      rw [hsame v ⟨u, hu, hv⟩ hvt, Tree.name, Tree.name, Tree.tag, Tree.tag, htraits]
  have hroot : (w.replace t.id new).root.id = w.root.id ∧
      (w.replace t.id new).root.traits = w.root.traits := by
    refine Tree.traits_replaceAt hid fun hrt => ?_
    rw [hsame w.root ⟨w.root, List.mem_cons_self, .top⟩ hrt, htraits]
  refine ⟨hroot.1.trans h.root_id, hroot.2.trans h.root_traits, hfresh, fun u hu => ?_,
    fun p hp => ?_⟩
  · have hu : u ∈ Tree.replaceAtAll t.id w.trees new := by rwa [← trees_replace]
    rw [Tree.replaceAtAll_eq_map] at hu
    obtain ⟨v, hv, rfl⟩ := List.mem_map.mp hu
    exact (hname v hv).1
  · obtain ⟨⟨n, b⟩, hb, rfl⟩ := List.mem_map.mp hp
    have hcs : ∀ c ∈ b.children, (Tree.replaceAt t.id c new).name = c.name := fun c hc =>
      (hname c (by
        simp only [trees, List.mem_append, List.mem_flatMap]
        exact .inr ⟨(n, b), hb, by simp [hc]⟩)).2
    simp only [Tree.replaceAtAll_eq_map, List.map_map]
    have hnames : b.children.map (Tree.name ∘ fun c => Tree.replaceAt t.id c new) =
        b.children.map Tree.name := List.map_congr_left hcs
    rw [hnames]
    exact h.builders (n, b) hb

/-- Where only the tree has a node, nothing else changes when it is replaced. -/
theorem replace_of_not_mem_tail {i : NodeId} (h : i ∉ Tree.idsOf w.trees.tail) (new : Tree S C M) :
    w.replace i new = { w with root := w.root.replaceAt i new } := by
  have hpart : ∀ ts ⊆ w.trees.tail, Tree.replaceAtAll i ts new = ts := fun ts hts =>
    Tree.replaceAtAll_of_not_mem fun hi => h <| by
      obtain ⟨t, ht, hit⟩ := Tree.mem_idsOf_iff.mp hi
      exact Tree.mem_idsOf_iff.mpr ⟨t, hts ht, hit⟩
  have hloose : Tree.replaceAtAll i w.loose new = w.loose := hpart _ (by simp [trees])
  have hbuilder : ∀ p ∈ w.builders, (p.1,
      { p.2 with
        children := Tree.replaceAtAll i p.2.children new
        absorbed := Tree.replaceAtAll i p.2.absorbed new }) = p := by
    intro p hp
    have hheld : p.2.children ++ p.2.absorbed ⊆ w.trees.tail := fun t ht =>
      List.mem_append_right _ (List.mem_flatMap.mpr ⟨p, hp, ht⟩)
    rw [hpart _ fun t ht => hheld (List.mem_append_left _ ht),
      hpart _ fun t ht => hheld (List.mem_append_right _ ht)]
  have hbuilders := (List.map_congr_left hbuilder).trans (List.map_id w.builders)
  rw [Workbench.replace, hloose]
  exact congrArg (fun builders => { w with root := w.root.replaceAt i new, builders }) hbuilders

theorem replace_of_not_mem {i : NodeId} (h : i ∉ Tree.idsOf w.trees) (new : Tree S C M) :
    w.replace i new = w := by
  have htail : i ∉ Tree.idsOf w.trees.tail := fun hi => h (List.mem_append_right w.root.ids hi)
  have hroot : i ∉ w.root.ids := fun hi => h (List.mem_append_left _ hi)
  rw [replace_of_not_mem_tail htail, Tree.replaceAt_of_not_mem hroot]

/-- A node that is not there gets no child. -/
theorem addChild_of_missing {c : Tree S C M} {parent : NodeId} (hbare : w.resolve parent = .bare parent)
    (hno : parent ∉ Tree.idsOf w.trees) (hc : c.isRoot = false) :
    w.addChild parent c = (.ok (), { w with step := w.step + 1 }) := by
  have hadd : (w.resolve parent).addChild w.step c =
      .ok (.node parent (.ofKind .root) [c]) := by
    rw [hbare, Tree.addChild, hc]
    rfl
  rw [Workbench.addChild, hadd, hbare]
  simp only [replace_of_not_mem hno]
  rfl

theorem addChild_of_root {c : Tree S C M} (hc : c.isRoot = true) (parent : NodeId) :
    w.addChild parent c = (.error Tree.rootAsChild, w.keep c) := by
  simp [Workbench.addChild, Tree.addChild, hc]

theorem InHand.withChild {t c : Tree S C M} (h : w.InHand c) (ht : Tree.Among w.trees t) :
    (w.withChild t c).Sound := by
  have hnames := h.sound.namesDistinct ht
  have hfresh := fresh_withChild h.fresh ht hnames h.names
  have hgrown : (w.grown t c).NamesDistinct := Tree.namesDistinct_iff.mpr
    (Tree.insertChild_spec w.step (Tree.namesDistinct_iff.mp hnames) h.names).1
  unfold Workbench.withChild at hfresh ⊢
  cases hn : Tree.anyNamed c.name t.children with
  | false =>
    rw [hn] at hfresh
    exact h.sound.replace (w.grown t c) ht rfl rfl hgrown hfresh
  | true =>
    rw [hn] at hfresh
    have hall := hfresh.subperm (Tree.idsOf_subperm (trees_keep _ c).symm.subperm)
    have hrest := h.sound.replace (w.grown t c) ht rfl rfl hgrown
      (hall.subperm (List.sublist_append_right c.ids _).subperm)
    exact InHand.keep ⟨hrest, hall, h.names⟩

theorem InHand.addChild {c : Tree S C M} (h : w.InHand c) (parent : NodeId) :
    (w.addChild parent c).2.Sound := by
  cases hc : c.isRoot with
  | true =>
    rw [addChild_of_root hc]
    exact h.keep
  | false =>
    rcases h.sound.resolve_cases parent with ⟨ht, hid⟩ | ⟨hbare, hno⟩
    · rw [← hid, addChild_of_among h.sound.ids ht hc]
      exact h.withChild ht
    · rw [addChild_of_missing hbare hno hc]
      exact h.sound.of_trees rfl rfl (h.sound.fresh.later (Nat.le_succ _)) fun t ht => .inl ht

theorem Sound.removeChild (h : w.Sound) (parent : NodeId) (name : Text) :
    (w.removeChild parent name).Sound := by
  rcases h.resolve_cases parent with ⟨ht, hid⟩ | ⟨-, hno⟩
  · unfold Workbench.removeChild
    generalize w.resolve parent = t at ht hid
    subst hid
    have hsub : (t.removeChild name).ids <+~ t.ids ++ [] := by
      rw [List.append_nil, Tree.removeChild, Tree.ids_node, Tree.ids_eq t]
      exact ((List.filter_sublist.flatMap _).cons_cons _).subperm
    refine h.replace (t.removeChild name) ht rfl rfl ?_ ?_
    · obtain ⟨hnodup, hbelow⟩ := Tree.namesDistinct_iff.mp (h.namesDistinct ht)
      exact Tree.namesDistinct_iff.mpr ⟨hnodup.sublist (List.filter_sublist.map _),
        fun c hc => hbelow c (List.mem_of_mem_filter hc)⟩
    · refine h.fresh.subperm ?_
      simpa using idsOf_replace_subperm _ [] ht h.ids hsub
  · rw [Workbench.removeChild, replace_of_not_mem hno]
    exact h

/-! Builders -/

/-- A changed builder in the place of the old one. -/
theorem Sound.store (h : w.Sound) (name : Text) {b : Builder S C M} {step : Nat}
    (hsib : Tree.Siblings b.children) (habsorbed : ∀ t ∈ b.absorbed, t.NamesDistinct)
    (hfresh : Tree.Fresh step
      (Tree.idsOf (b.children ++ b.absorbed ++ (w.without name).trees))) :
    Sound { w.store name b with step } where
  root_id := h.root_id
  root_traits := h.root_traits
  fresh := hfresh.subperm (Tree.idsOf_subperm (trees_store w name b).subperm)
  names := by
    intro t ht
    rcases List.mem_append.mp ((trees_store w name b).subset ht) with ht | ht
    · rcases List.mem_append.mp ht with ht | ht
      · exact hsib.below t ht
      · exact habsorbed t ht
    · exact h.names t ((trees_without_sublist w name).subset ht)
  builders := by
    rintro p hp
    rcases List.mem_cons.mp hp with rfl | hp
    · exact hsib.nodup
    · exact h.builders p (List.mem_of_mem_filter hp)

/-- A builder that holds what it held. -/
theorem Sound.store_same (h : w.Sound) {name : Text} {b b' : Builder S C M}
    (hb : w.named? name = some b) (hchildren : b'.children = b.children)
    (habsorbed : b'.absorbed = b.absorbed) : (w.store name b').Sound := by
  have hheld := held_subperm hb
  refine h.store name (hchildren ▸ h.siblings hb) (fun t ht => ?_) ?_
  · exact h.names t (hheld.subset (by simp [habsorbed ▸ ht]))
  · rw [hchildren, habsorbed]
    exact h.fresh.subperm (Tree.idsOf_subperm hheld)

theorem Sound.start (h : w.Sound) (name : Text) (kind : Kind S) :
    (w.store name (.ofKind kind)).Sound := by
  refine h.store name ⟨List.nodup_nil, by simp [Builder.ofKind]⟩ (by simp [Builder.ofKind]) ?_
  exact h.fresh.subperm (Tree.idsOf_subperm (trees_without_sublist w name).subperm)

/-- A builder takes a child that is no root, unless it redirects. -/
theorem attach_cases (w : Workbench S C M) (b : Builder S C M) (c : Tree S C M) :
    (b.redirect = none ∧ c.isRoot = false ∧
      w.attach b c = (.ok (), b.withChild w.step c, { w with step := w.step + 1 })) ∨
    (b.redirect.isSome ∨ c.isRoot = true) ∧ ∃ f, w.attach b c = (.error f, b, w.keep c) := by
  cases hr : b.redirect with
  | some target => exact .inr ⟨.inl rfl, _, by rw [attach, Builder.addChild, hr]; rfl⟩
  | none =>
    cases hc : c.isRoot with
    | true => exact .inr ⟨.inr rfl, _, by rw [attach, Builder.addChild, hr, hc]; rfl⟩
    | false => exact .inl ⟨rfl, rfl, by rw [attach, Builder.addChild, hr, hc]; rfl⟩

theorem InHand.attach {c : Tree S C M} (h : w.InHand c) {name : Text} {b : Builder S C M}
    (hb : w.named? name = some b) :
    ((w.attach b c).2.2.store name (w.attach b c).2.1).Sound := by
  rcases attach_cases w b c with ⟨-, -, ha⟩ | ⟨-, f, ha⟩
  · have hsib := h.sound.siblings hb
    have hheld := held_subperm hb
    have hold : ∀ t ∈ b.absorbed, t.NamesDistinct := fun t ht =>
      h.sound.names t (hheld.subset (by simp [ht]))
    rw [ha]
    refine h.sound.store name (Tree.insertChild_spec w.step hsib h.names).1 (fun t ht => ?_) ?_
    · rw [Builder.withChild] at ht
      cases hn : Tree.anyNamed c.name b.children with
      | false => exact hold t (by simpa [hn] using ht)
      | true =>
        rw [hn] at ht
        rcases List.mem_append.mp ht with ht | ht
        · exact hold t ht
        · exact List.mem_singleton.mp ht ▸ h.names
    · exact Tree.fresh_insertChild hsib h.names
        (h.fresh.subperm (Tree.idsOf_subperm ((List.subperm_cons c).mpr hheld)))
  · rw [ha]
    exact h.keep.store_same hb rfl rfl

/-- A change that adds no child leaves alone what the builder holds; a redirect changes only where it
holds nothing. -/
theorem apply_of_no_child (w : Workbench S C M) (b : Builder S C M) {s : Setting S C M}
    (hs : ∀ part, s ≠ .child part) :
    ∃ outcome b', w.apply b s = (outcome, b', w) ∧ b'.children = b.children ∧
      b'.absorbed = b.absorbed ∧ (b'.redirect = b.redirect ∨ b.children = []) := by
  cases s with
  | child part => exact absurd rfl (hs part)
  | forward target modifier forks =>
    cases target with
    | none =>
      rw [Workbench.apply]
      cases hb' : b.forward none modifier forks with
      | error f => exact ⟨_, b, rfl, rfl, rfl, .inl rfl⟩
      | ok b' =>
        obtain ⟨hnone, hc, ha⟩ := Builder.forward_ok hb'
        exact ⟨_, b', rfl, hc, ha, .inr hnone⟩
    | some target =>
      rw [Workbench.apply]
      cases w.locate target with
      | error f => exact ⟨_, b, rfl, rfl, rfl, .inl rfl⟩
      | ok id =>
        dsimp only
        cases hb' : b.forward (some id) modifier forks with
        | error f => exact ⟨_, b, rfl, rfl, rfl, .inl rfl⟩
        | ok b' =>
          obtain ⟨hnone, hc, ha⟩ := Builder.forward_ok hb'
          exact ⟨_, b', rfl, hc, ha, .inr hnone⟩
  | provider p =>
    refine ⟨_, b.suggests p, by rw [Workbench.apply], ?_⟩
    unfold Builder.suggests
    split <;> exact ⟨rfl, rfl, .inl rfl⟩
  | command c => exact ⟨_, { b with command := some c }, by rw [Workbench.apply], rfl, rfl, .inl rfl⟩
  | requirement p =>
    exact ⟨_, { b with requirement := some p }, by rw [Workbench.apply], rfl, rfl, .inl rfl⟩
  | contextRequirement p =>
    exact ⟨_, { b with contextRequirement := some p }, by rw [Workbench.apply], rfl, rfl, .inl rfl⟩

/-- A part that has a name is built from the builder of that name, or is the loose node under that
label; where there is none, nothing changes. -/
theorem prepare_cases (w : Workbench S C M) {part : Part S C M}
    (hpart : (∃ name, part = .builder name) ∨ ∃ label, part = .loose label) :
    (∃ f, w.prepare part = (.error f, w)) ∨
      (∃ name b, w.named? name = some b ∧ w.prepare part = (.ok (w.build b).1, (w.build b).2)) ∨
      ∃ label c w', w.take label = (.ok c, w') ∧ w.prepare part = (.ok c, w') := by
  rcases hpart with ⟨name, rfl⟩ | ⟨label, rfl⟩
  · rw [prepare]
    cases hb : w.named? name with
    | none => exact .inl ⟨_, rfl⟩
    | some b => exact .inr (.inl ⟨name, b, hb, rfl⟩)
  · rw [prepare]
    rcases ht : w.take label with ⟨f | c, w'⟩
    · exact .inl ⟨f, by rw [take_error ht]⟩
    · exact .inr (.inr ⟨label, c, w', ht, rfl⟩)

theorem amend_one {name : Text} {b : Builder S C M} (hb : w.named? name = some b)
    (s : Setting S C M) :
    (w.amend name [s]).2 = (w.apply b s).2.2.store name (w.apply b s).2.1 := by
  rw [amend, hb]
  dsimp only
  rcases w.apply b s with ⟨_ | _, _, _⟩ <;> rfl

/-- A child is prepared and then attached to the builder. -/
theorem amend_child {name : Text} {b : Builder S C M} {part : Part S C M} {c : Tree S C M}
    {w' : Workbench S C M} (hb : w.named? name = some b) (hpart : w.prepare part = (.ok c, w')) :
    w.amend name [.child part] =
      ((w'.attach b c).1, (w'.attach b c).2.2.store name (w'.attach b c).2.1) := by
  rw [amend, hb]
  dsimp only
  rw [apply, hpart]
  dsimp only
  rcases w'.attach b c with ⟨_ | _, _, _⟩ <;> rfl

/-- A registration adds what is built to the root. -/
theorem perform_register_eq {name : Text} {b : Builder S C M} (hb : w.named? name = some b) :
    w.perform (.register name) = (w.build b).2.addChild w.root.id (w.build b).1 := by
  rw [perform, hb]
  dsimp only [register]
  rcases hw : (w.build b).2.addChild (w.build b).2.root.id (w.build b).1 with ⟨_ | _, _⟩ <;> exact hw.symm

theorem perform_register {name : Text} {b : Builder S C M} (hb : w.named? name = some b) :
    (w.perform (.register name)).2 = ((w.build b).2.addChild w.root.id (w.build b).1).2 :=
  congrArg Prod.snd (perform_register_eq hb)

/-- A change of a builder that adds no child keeps its redirect, or sets it to a node that is there. -/
theorem redirect_of_apply (w : Workbench S C M) (b : Builder S C M) {s : Setting S C M}
    (hs : ∀ part, s ≠ .child part) {i : NodeId} (hi : i ∈ (w.apply b s).2.1.redirect) :
    i ∈ b.redirect ∨ ∃ target, w.locate target = .ok i := by
  have hforward : ∀ (target : Option NodeId) modifier forks b',
      b.forward target modifier forks = .ok b' → b'.redirect = target := by
    intro target modifier forks b' h
    unfold Builder.forward at h
    split_ifs at h
    cases h
    rfl
  cases s with
  | child part => exact absurd rfl (hs part)
  | command | requirement | contextRequirement =>
    rw [Workbench.apply] at hi
    exact .inl hi
  | provider p =>
    rw [Workbench.apply, Builder.suggests] at hi
    dsimp only at hi
    split at hi <;> exact .inl hi
  | forward target modifier forks =>
    cases target with
    | none =>
      rw [Workbench.apply] at hi
      split at hi
      · exact .inl hi
      · rename_i b' hb'
        simp [hforward _ _ _ _ hb'] at hi
    | some target =>
      rw [Workbench.apply] at hi
      cases hlocate : w.locate target with
      | error f =>
        rw [hlocate] at hi
        exact .inl hi
      | ok j =>
        rw [hlocate] at hi
        dsimp only at hi
        split at hi
        · exact .inl hi
        · rename_i b' hb'
          obtain rfl : j = i := by simpa [hforward _ _ _ _ hb'] using hi
          exact .inr ⟨target, hlocate⟩

/-- What one change of a builder comes to: the builder is put back, holding what it held and perhaps with a
redirect to a node that is there; or a child is had, built or taken, and attached to it. -/
theorem change_cases {name : Text} {b : Builder S C M} (hb : w.named? name = some b)
    (change : Change S C M) :
    (∃ b', (w.amend name [change.setting]).2 = w.store name b' ∧ b'.children = b.children ∧
      b'.absorbed = b.absorbed ∧
      ∀ i ∈ b'.redirect, i ∈ b.redirect ∨ ∃ target, w.locate target = .ok i) ∨
    ∃ c w', ((∃ n b', w.named? n = some b' ∧ c = (w.build b').1 ∧ w' = (w.build b').2) ∨
        ∃ label, w.take label = (.ok c, w')) ∧
      (w.amend name [change.setting]).2 = (w'.attach b c).2.2.store name (w'.attach b c).2.1 := by
  rw [amend_one hb]
  have hplain : (∀ part, change.setting ≠ .child part) →
      ∃ b', (w.apply b change.setting).2.2.store name (w.apply b change.setting).2.1 =
        w.store name b' ∧ b'.children = b.children ∧ b'.absorbed = b.absorbed ∧
        ∀ i ∈ b'.redirect, i ∈ b.redirect ∨ ∃ target, w.locate target = .ok i := by
    intro hs
    obtain ⟨outcome, b', ha, hchildren, habsorbed, -⟩ := w.apply_of_no_child b hs
    have hset := fun i => w.redirect_of_apply b hs (i := i)
    rw [ha] at hset ⊢
    exact ⟨b', rfl, hchildren, habsorbed, hset⟩
  have hchild : ∀ part : Part S C M,
      (∃ n, part = .builder n) ∨ (∃ label, part = .loose label) →
      (w.apply b (.child part)).2.2.store name (w.apply b (.child part)).2.1 = w.store name b ∨
      ∃ c w', ((∃ n b', w.named? n = some b' ∧ c = (w.build b').1 ∧ w' = (w.build b').2) ∨
          ∃ label, w.take label = (.ok c, w')) ∧
        (w.apply b (.child part)).2.2.store name (w.apply b (.child part)).2.1 =
          (w'.attach b c).2.2.store name (w'.attach b c).2.1 := by
    intro part hpart
    rw [apply]
    rcases w.prepare_cases hpart with ⟨f, hp⟩ | ⟨n, b', hb', hp⟩ | ⟨label, c, w', ht, hp⟩ <;> rw [hp]
    · exact .inl rfl
    · exact .inr ⟨_, _, .inl ⟨n, b', hb', rfl, rfl⟩, rfl⟩
    · exact .inr ⟨c, w', .inr ⟨label, ht⟩, rfl⟩
  have hsame := fun i (hi : i ∈ b.redirect) => Or.inl (b := ∃ target, w.locate target = .ok i) hi
  cases change with
  | built n =>
    exact (hchild _ (.inl ⟨n, rfl⟩)).imp_left fun heq => ⟨b, heq, rfl, rfl, hsame⟩
  | loose label =>
    exact (hchild _ (.inr ⟨label, rfl⟩)).imp_left fun heq => ⟨b, heq, rfl, rfl, hsame⟩
  | command | requirement | contextRequirement | provider | forward =>
    exact .inl (hplain fun part => nofun)

/-- A changed builder leaves the workbench in order. -/
theorem Sound.change (h : w.Sound) (name : Text) (change : Change S C M) :
    (w.amend name [change.setting]).2.Sound := by
  cases hb : w.named? name with
  | none => rwa [amend, hb]
  | some b =>
    rcases change_cases hb change with ⟨b', heq, hchildren, habsorbed, -⟩ | ⟨c, w', hhad, heq⟩ <;>
      rw [heq]
    · exact h.store_same hb hchildren habsorbed
    · rcases hhad with ⟨n, b', hb', rfl, rfl⟩ | ⟨label, ht⟩
      · exact (h.inHand_build hb').attach hb
      · exact (h.inHand_take ht).attach (by rw [named?, (take_ok ht).2]; exact hb)

/-- Every call leaves the workbench in order. -/
theorem Sound.perform (h : w.Sound) (call : Call S C M) : (w.perform call).2.Sound := by
  cases call with
  | start name kind => exact h.start name kind
  | change name change => exact h.change name change
  | build name label =>
    rw [Workbench.perform]
    cases hb : w.named? name with
    | none => exact h
    | some b => exact (h.inHand_build hb).putAside label
  | clone target label =>
    rw [Workbench.perform]
    cases w.locate target with
    | error f => exact h
    | ok i => exact (h.inHand_clone i).putAside label
  | register name =>
    cases hb : w.named? name with
    | none =>
      rw [Workbench.perform, hb]
      exact h
    | some b =>
      rw [perform_register hb]
      exact (h.inHand_build hb).addChild w.root.id
  | add target label =>
    rw [Workbench.perform]
    cases w.locate target with
    | error f => exact h
    | ok parent =>
      rcases ht : w.take label with ⟨f | c, w'⟩
      · rw [take_error ht]
        exact h
      · exact (h.inHand_take ht).addChild parent
  | remove target name =>
    rw [Workbench.perform]
    cases w.locate target with
    | error f => exact h
    | ok parent => exact h.removeChild parent name

/-- In the grammar of a workbench siblings have different names, and identities find their nodes. -/
theorem Sound.grammar (h : w.Sound) : w.grammar.NamesDistinct ∧ w.grammar.Coherent := by
  have hbare : ∀ i, (∀ u, (w.resolve i).Has u → Tree.Among w.trees u) ∨ w.resolve i = .bare i := by
    intro i
    rcases h.resolve_cases i with ⟨⟨t, ht, hti⟩, -⟩ | ⟨hbare, -⟩
    · exact .inl fun u hu => ⟨t, ht, hti.trans hu⟩
    · exact .inr hbare
  constructor
  · refine ⟨h.names w.root List.mem_cons_self, fun i => ?_⟩
    rcases hbare i with hamong | hi
    · exact h.namesDistinct (hamong _ .top)
    · change (w.resolve i).NamesDistinct
      rw [hi]
      exact Tree.namesDistinct_bare i
  · intro t ht
    rcases ht.hasNode with hroot | ⟨i, hi⟩
    · exact resolve_of_among h.ids ⟨w.root, List.mem_cons_self, hroot⟩
    · rcases hbare i with hamong | hb
      · exact resolve_of_among h.ids (hamong t hi)
      · have hti : w.resolve i = t := by
          change (w.resolve i).Has t at hi
          rw [hb] at hi ⊢
          rcases Tree.has_iff.mp hi with rfl | ⟨c, hc, -⟩
          · rfl
          · exact absurd hc List.not_mem_nil
        rw [← hti, hb]
        exact hb

/-- Whatever calls were made, the workbench is in order. -/
theorem sound_run (options : Options) (calls : List (Call S C M)) : (run options calls).Sound :=
  run_induction (sound_ofOptions options) (fun _ call h => h.perform call) calls

end Workbench

end CommandTree
