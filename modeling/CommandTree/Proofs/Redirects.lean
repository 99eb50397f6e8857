import CommandTree.Proofs.Calls
import CommandTree.Proofs.Merging

/-!
Nodes that redirect have no children, as long as nothing is merged into them. A builder refuses to
have both, but merging adds the children of a newcomer to whatever has its name. Main statement:
through any calls, redirecting nodes stay without children until a call merges a node with children
into one that redirects, or adds a child to one, and after such a call one has a child.
-/

namespace CommandTree

namespace Tree

variable {S C M : Type}

/-- Every node of the tree that redirects has no children. -/
def RedirectsEnd (t : Tree S C M) : Prop := ∀ u, t.Has u → u.redirect.isSome → u.children = []

instance decidableRedirectsEnd (t : Tree S C M) : Decidable t.RedirectsEnd :=
  decidable_of_iff (∀ u ∈ t.subtrees, u.redirect.isSome → u.children = [])
    (forall_congr' fun _ => imp_congr_left mem_subtrees_iff)

theorem redirectsEnd_iff {t : Tree S C M} :
    t.RedirectsEnd ↔ (t.redirect.isSome → t.children = []) ∧ ∀ c ∈ t.children, c.RedirectsEnd := by
  constructor
  · exact fun h => ⟨h t .top, fun c hc u hu => h u ((Has.child .top hc).trans hu)⟩
  · rintro ⟨htop, hbelow⟩ u hu
    rcases has_iff.mp hu with rfl | ⟨c, hc, hcu⟩
    · exact htop
    · exact hbelow c hc u hcu

theorem RedirectsEnd.of_has {t u : Tree S C M} (h : t.RedirectsEnd) (hu : t.Has u) :
    u.RedirectsEnd := fun v hv => h v (hu.trans hv)

theorem redirectsEnd_bare (i : NodeId) : (bare i : Tree S C M).RedirectsEnd :=
  redirectsEnd_iff.mpr ⟨nofun, fun _ hc => absurd hc List.not_mem_nil⟩

/-- Where siblings have different names, the nodes of a tree are those that names lead to. -/
theorem has_iff_descend {t u : Tree S C M} (ht : t.NamesDistinct) :
    t.Has u ↔ ∃ path, t.descend? path = some u := by
  constructor
  · induction t with
    | node i traits cs ih =>
      intro h
      rcases has_iff.mp h with rfl | ⟨c, hc, hcu⟩
      · exact ⟨[], rfl⟩
      · obtain ⟨path, hpath⟩ := ih c hc (ht.child hc) hcu
        refine ⟨c.name :: path, ?_⟩
        rw [descend?, (child?_eq_some_iff ht.nodup).mpr ⟨hc, rfl⟩]
        exact hpath
  · rintro ⟨path, h⟩
    exact has_of_descend h

theorem redirectsEnd_iff_descend {t : Tree S C M} (ht : t.NamesDistinct) :
    t.RedirectsEnd ↔ ∀ path u, t.descend? path = some u → u.redirect.isSome → u.children = [] :=
  ⟨fun h path u hu => h u ((has_iff_descend ht).mpr ⟨path, hu⟩), fun h u hu =>
    let ⟨path, hpath⟩ := (has_iff_descend ht).mp hu
    h path u hpath⟩

theorem RedirectsEnd.copy {t : Tree S C M} (h : t.RedirectsEnd) (step : Nat) :
    (t.copy step).RedirectsEnd := by
  induction t with
  | node i traits cs ih =>
    obtain ⟨htop, hbelow⟩ := redirectsEnd_iff.mp h
    refine redirectsEnd_iff.mpr ⟨fun hr => ?_, fun c hc => ?_⟩
    · have hcs : cs = [] := htop hr
      rw [Tree.copy, hcs]
      rfl
    · rw [Tree.copy, children_node, copyAll_eq_map] at hc
      obtain ⟨d, hd, rfl⟩ := List.mem_map.mp hc
      exact ih d hd (hbelow d hd)

/-- At some place in both trees, the first has a node that redirects and the second one that has
children. -/
def Collides (old newcomer : Tree S C M) : Prop :=
  ∃ path u v, old.descend? path = some u ∧ newcomer.descend? path = some v ∧
    u.redirect.isSome ∧ v.children ≠ []

/-- Merging leaves redirecting nodes without children exactly if the trees do not collide. -/
theorem redirectsEnd_absorb {e i : Tree S C M} (step : Nat) (hen : e.NamesDistinct)
    (hin : i.NamesDistinct) (he : e.RedirectsEnd) (hi : i.RedirectsEnd) :
    (absorb step e i).RedirectsEnd ↔ ¬ e.Collides i := by
  rw [redirectsEnd_iff_descend (absorb_spec step hin e hen).1]
  have hed := (redirectsEnd_iff_descend hen).mp he
  constructor
  · rintro h ⟨path, u, v, hu, hv, hr, hchildren⟩
    have hmerged := h path (absorb step u v) (by rw [descend?_absorb step e hin, hu, hv]; rfl)
      (by simpa [redirect] using hr)
    have hnames := map_name_absorb step u (namesDistinct_of_descend hin hv).nodup
    rw [hmerged, hed path u hu hr] at hnames
    exact hchildren (by simpa using hnames)
  · intro h path x hx hr
    rw [descend?_absorb step e hin] at hx
    cases hu : e.descend? path with
    | none =>
      cases hv : i.descend? path with
      | none => simp [hu, hv, unite] at hx
      | some v =>
        obtain rfl : v.copy step = x := by simpa [hu, hv, unite] using hx
        exact ((hi.of_has ((has_iff_descend hin).mpr ⟨path, hv⟩)).copy step) _ .top hr
    | some u =>
      cases hv : i.descend? path with
      | none =>
        obtain rfl : u = x := by simpa [hu, hv, unite] using hx
        exact hed path u hu hr
      | some v =>
        obtain rfl : absorb step u v = x := by simpa [hu, hv, unite] using hx
        have hru : u.redirect.isSome := by simpa [redirect] using hr
        have hnone : v.children = [] := by
          by_contra hc
          exact h ⟨path, u, v, hu, hv, hru, hc⟩
        rw [children_absorb, hnone, hed path u hu hru]
        rfl

/-- A newcomer collides with the sibling that has its name. -/
def CollidesAmong (cs : List (Tree S C M)) (c : Tree S C M) : Prop :=
  ∃ e ∈ cs, e.name = c.name ∧ e.Collides c

theorem redirectsEnd_insertChild {cs : List (Tree S C M)} {c : Tree S C M} (step : Nat)
    (hcs : Siblings cs) (hcn : c.NamesDistinct) (hall : ∀ d ∈ cs, d.RedirectsEnd)
    (hc : c.RedirectsEnd) :
    (∀ d ∈ insertChild step cs c, d.RedirectsEnd) ↔ ¬ CollidesAmong cs c := by
  rw [insertChild_eq_graft]
  rcases graft_cases step c c hcs.nodup with
    ⟨-, before, e, after, rfl, hname, hg⟩ | ⟨-, hnone, hg⟩
  · have he : e ∈ before ++ e :: after := by simp
    have honly : CollidesAmong (before ++ e :: after) c ↔ e.Collides c := by
      constructor
      · rintro ⟨d, hd, hdn, hcol⟩
        have hde : d = e := List.inj_on_of_nodup_map hcs.nodup hd he (hdn.trans hname.symm)
        exact hde ▸ hcol
      · exact fun hcol => ⟨e, he, hname, hcol⟩
    rw [hg, honly, ← redirectsEnd_absorb step (hcs.below e he) hcn (hall e he) hc]
    constructor
    · exact fun h => h _ (by simp)
    · intro h d hd
      rcases List.mem_append.mp hd with hd | hd
      · exact hall d (by simp [hd])
      rcases List.mem_cons.mp hd with rfl | hd
      · exact h
      · exact hall d (by simp [hd])
  · rw [hg]
    refine iff_of_true (fun d hd => ?_) ?_
    · rcases List.mem_append.mp hd with hd | hd
      · exact hall d hd
      · exact List.mem_singleton.mp hd ▸ hc
    · rintro ⟨e, he, hname, -⟩
      exact hnone e he hname

theorem insertChild_ne_nil (step : Nat) (cs : List (Tree S C M)) (c : Tree S C M) :
    insertChild step cs c ≠ [] := by
  unfold insertChild
  split
  · rename_i h
    obtain ⟨e, he, -⟩ := anyNamed_iff.mp h
    simpa using List.ne_nil_of_mem he
  · simp

theorem RedirectsEnd.replaceAt {u new : Tree S C M} {i : NodeId} (hu : u.RedirectsEnd)
    (hnew : new.RedirectsEnd) : (replaceAt i u new).RedirectsEnd := by
  induction u with
  | node j traits cs ih =>
    obtain ⟨htop, hbelow⟩ := redirectsEnd_iff.mp hu
    rw [Tree.replaceAt]
    split
    · exact hnew
    · rw [replaceAtAll_eq_map]
      refine redirectsEnd_iff.mpr ⟨fun hr => ?_, fun d hd => ?_⟩
      · have hcs : cs = [] := htop hr
        rw [hcs]
        rfl
      · obtain ⟨c, hc, rfl⟩ := List.mem_map.mp hd
        exact ih c hc (hbelow c hc)

end Tree

namespace Workbench

variable {S C M : Type} {w : Workbench S C M}

/-- No node on the workbench has both a redirect and children, and no builder has. -/
structure RedirectsEnd (w : Workbench S C M) : Prop where
  trees : ∀ t ∈ w.trees, t.RedirectsEnd
  builders : ∀ p ∈ w.builders, p.2.redirect.isSome → p.2.children = []

/-- A call is about to put a tree where it collides: to merge it into a sibling with which it
collides, or to add it to a node that redirects. -/
def Clashes (w : Workbench S C M) : Call S C M → Prop
  | .change name (.built part) => ∃ b p, w.named? name = some b ∧ w.named? part = some p ∧
      b.redirect = none ∧ (w.build p).1.isRoot = false ∧
      Tree.CollidesAmong b.children (w.build p).1
  | .change name (.loose label) => ∃ b c w', w.named? name = some b ∧ w.take label = (.ok c, w') ∧
      b.redirect = none ∧ c.isRoot = false ∧ Tree.CollidesAmong b.children c
  | .register name => ∃ b, w.named? name = some b ∧ (w.build b).1.isRoot = false ∧
      Tree.CollidesAmong w.root.children (w.build b).1
  | .add target label => ∃ i c w', w.locate target = .ok i ∧ w.take label = (.ok c, w') ∧
      c.isRoot = false ∧
      ((w'.resolve i).redirect.isSome ∨ Tree.CollidesAmong (w'.resolve i).children c)
  | _ => False

theorem redirectsEnd_keep {c : Tree S C M} (hc : c.RedirectsEnd) :
    (w.keep c).RedirectsEnd ↔ w.RedirectsEnd := by
  refine ⟨fun h => ⟨fun t ht => ?_, h.builders⟩, fun h => ⟨fun t ht => ?_, h.builders⟩⟩
  · exact h.trees t ((trees_keep w c).symm.subset (List.mem_cons_of_mem c ht))
  · rcases List.mem_cons.mp ((trees_keep w c).subset ht) with rfl | ht
    · exact hc
    · exact h.trees t ht

theorem redirectsEnd_step {step : Nat} :
    RedirectsEnd { w with step } ↔ w.RedirectsEnd :=
  ⟨fun h => ⟨h.trees, h.builders⟩, fun h => ⟨h.trees, h.builders⟩⟩

theorem RedirectsEnd.among (hw : w.RedirectsEnd) {t : Tree S C M} (ht : Tree.Among w.trees t) :
    t.RedirectsEnd := by
  obtain ⟨u, hu, hut⟩ := ht
  exact (hw.trees u hu).of_has hut

theorem redirectsEnd_replace (hw : w.RedirectsEnd) {t : Tree S C M} (new : Tree S C M)
    (ht : Tree.Among w.trees t) : (w.replace t.id new).RedirectsEnd ↔ new.RedirectsEnd := by
  constructor
  · intro h
    refine h.among ?_
    rw [trees_replace]
    exact ht.replaceAtAll new
  · refine fun hnew => ⟨fun u hu => ?_, fun p hp hr => ?_⟩
    · rw [trees_replace, Tree.replaceAtAll_eq_map] at hu
      obtain ⟨v, hv, rfl⟩ := List.mem_map.mp hu
      exact (hw.trees v hv).replaceAt hnew
    · obtain ⟨q, hq, rfl⟩ := List.mem_map.mp hp
      have hnone : q.2.children = [] := hw.builders q hq hr
      simp [hnone, Tree.replaceAtAll]

/-- Adding a child that is no root to a node. -/
theorem redirectsEnd_grown {t c : Tree S C M} (ht : t.NamesDistinct) (hc : c.NamesDistinct)
    (htr : t.RedirectsEnd) (hcr : c.RedirectsEnd) :
    (w.grown t c).RedirectsEnd ↔
      ¬ (t.redirect.isSome ∨ Tree.CollidesAmong t.children c) := by
  have hbelow := Tree.redirectsEnd_insertChild w.step (Tree.namesDistinct_iff.mp ht) hc
    (Tree.redirectsEnd_iff.mp htr).2 hcr
  rw [grown, Tree.redirectsEnd_iff, Tree.children_node, hbelow, not_or]
  exact and_congr_left' (imp_iff_not (Tree.insertChild_ne_nil w.step t.children c))

theorem redirectsEnd_addChild {c : Tree S C M} (h : w.InHand c) (hw : w.RedirectsEnd)
    (hc : c.RedirectsEnd) (parent : NodeId) :
    (w.addChild parent c).2.RedirectsEnd ↔
      ¬ (c.isRoot = false ∧ ((w.resolve parent).redirect.isSome ∨
        Tree.CollidesAmong (w.resolve parent).children c)) := by
  cases hroot : c.isRoot with
  | true =>
    rw [addChild_of_root hroot]
    exact iff_of_true ((redirectsEnd_keep hc).mpr hw) (by simp)
  | false =>
    rcases h.sound.resolve_cases parent with ⟨ht, hid⟩ | ⟨hbare, hno⟩
    · rw [← hid, addChild_of_among h.sound.ids ht hroot, hid, eq_self_iff_true, true_and,
        ← redirectsEnd_grown (w := w) (h.sound.namesDistinct ht) h.names (hw.among ht) hc,
        ← redirectsEnd_replace hw (w.grown (w.resolve parent) c) ht, withChild]
      split_ifs
      · rw [redirectsEnd_keep hc, redirectsEnd_step]
      · exact redirectsEnd_step
    · rw [addChild_of_missing hbare hno hroot, hbare]
      refine iff_of_true ⟨hw.trees, hw.builders⟩ ?_
      rintro ⟨-, hr | ⟨e, he, -⟩⟩
      · simp [Tree.bare, Tree.redirect, Traits.ofKind] at hr
      · simp [Tree.bare] at he

/-- A builder that is put in the place of another. -/
theorem redirectsEnd_store (hw : w.RedirectsEnd) {name : Text} {b b' : Builder S C M}
    (hb : w.named? name = some b) (habsorbed : ∀ t ∈ b'.absorbed, t.RedirectsEnd) :
    (w.store name b').RedirectsEnd ↔
      (b'.redirect.isSome → b'.children = []) ∧ ∀ c ∈ b'.children, c.RedirectsEnd := by
  constructor
  · intro h
    refine ⟨h.builders (name, b') List.mem_cons_self, fun c hc => h.trees c ?_⟩
    exact (trees_store w name b').symm.subset (by simp [hc])
  · rintro ⟨htop, hbelow⟩
    refine ⟨fun t ht => ?_, fun p hp => ?_⟩
    · rcases List.mem_append.mp ((trees_store w name b').subset ht) with ht | ht
      · exact (List.mem_append.mp ht).elim (hbelow t) (habsorbed t)
      · exact hw.trees t ((held_subperm hb).subset (List.mem_append_right _ ht))
    · rcases List.mem_cons.mp hp with rfl | hp
      · exact htop
      · exact hw.builders p (List.mem_of_mem_filter hp)

theorem RedirectsEnd.held (hw : w.RedirectsEnd) {name : Text} {b : Builder S C M}
    (hb : w.named? name = some b) :
    (b.redirect.isSome → b.children = []) ∧ (∀ c ∈ b.children, c.RedirectsEnd) ∧
      ∀ t ∈ b.absorbed, t.RedirectsEnd :=
  ⟨hw.builders _ (mem_builders hb),
    fun c hc => hw.trees c ((held_subperm hb).subset (by simp [hc])),
    fun t ht => hw.trees t ((held_subperm hb).subset (by simp [ht]))⟩

/-- Adding a child to a builder. -/
theorem redirectsEnd_attach {c : Tree S C M} (h : w.InHand c) (hw : w.RedirectsEnd)
    (hc : c.RedirectsEnd) {name : Text} {b : Builder S C M} (hb : w.named? name = some b) :
    ((w.attach b c).2.2.store name (w.attach b c).2.1).RedirectsEnd ↔
      ¬ (b.redirect = none ∧ c.isRoot = false ∧ Tree.CollidesAmong b.children c) := by
  obtain ⟨htop, hbelow, habsorbed⟩ := hw.held hb
  rcases attach_cases w b c with ⟨hr, hroot, ha⟩ | ⟨hrefused, f, ha⟩
  · have habsorbed' : ∀ t ∈ (b.withChild w.step c).absorbed, t.RedirectsEnd := by
      intro t ht
      rw [Builder.withChild] at ht
      cases hn : Tree.anyNamed c.name b.children with
      | false => exact habsorbed t (by simpa [hn] using ht)
      | true =>
        rw [hn] at ht
        rcases List.mem_append.mp ht with ht | ht
        · exact habsorbed t ht
        · exact List.mem_singleton.mp ht ▸ hc
    have hchildren := Tree.redirectsEnd_insertChild w.step (h.sound.siblings hb) h.names hbelow hc
    have hstored := redirectsEnd_store hw hb habsorbed'
    rw [ha]
    refine redirectsEnd_step.trans (hstored.trans ?_)
    have hnone : (b.withChild w.step c).redirect = none := hr
    rw [hnone, hr, hroot]
    simpa [Builder.withChild] using hchildren
  · rw [ha]
    refine iff_of_true ?_ ?_
    · exact (redirectsEnd_store ((redirectsEnd_keep hc).mpr hw) hb habsorbed).mpr ⟨htop, hbelow⟩
    · rintro ⟨hr, hroot, -⟩
      simp [hr, hroot] at hrefused

/-- A loose node that is taken is as it was, and so is what it is taken from. -/
theorem RedirectsEnd.take (hw : w.RedirectsEnd) {label : Text} {c : Tree S C M}
    {w' : Workbench S C M} (ht : w.take label = (.ok c, w')) :
    c.RedirectsEnd ∧ w'.RedirectsEnd ∧ w'.builders = w.builders := by
  have hall := (take_subperm ht).subset
  obtain ⟨-, rfl⟩ := take_ok ht
  exact ⟨hw.trees c (hall (by simp)),
    ⟨fun t ht => hw.trees t (hall (List.mem_cons_of_mem c ht)), hw.builders⟩, rfl⟩

theorem redirectsEnd_built (hw : w.RedirectsEnd) {name : Text} {b : Builder S C M}
    (hb : w.named? name = some b) : (w.build b).1.RedirectsEnd := by
  obtain ⟨htop, hbelow, -⟩ := hw.held hb
  have hsketch : (Tree.node [] b.toTraits b.children).RedirectsEnd :=
    Tree.redirectsEnd_iff.mpr ⟨htop, hbelow⟩
  exact hsketch.copy w.step

theorem RedirectsEnd.resolve (hw : w.RedirectsEnd) (h : w.Sound) (i : NodeId) :
    (w.resolve i).RedirectsEnd := by
  rcases h.resolve_cases i with ⟨ht, -⟩ | ⟨hbare, -⟩
  · exact hw.among ht
  · rw [hbare]
    exact Tree.redirectsEnd_bare i

theorem redirectsEnd_putAside {c : Tree S C M} (hw : w.RedirectsEnd) (hc : c.RedirectsEnd)
    (label : Text) : (w.putAside label c).RedirectsEnd :=
  let hk := (redirectsEnd_keep hc).mpr hw
  ⟨hk.trees, hk.builders⟩

theorem redirectsEnd_removeChild (h : w.Sound) (hw : w.RedirectsEnd) (parent : NodeId)
    (name : Text) : (w.removeChild parent name).RedirectsEnd := by
  obtain ⟨htop, hbelow⟩ := Tree.redirectsEnd_iff.mp (hw.resolve h parent)
  have hnew : ((w.resolve parent).removeChild name).RedirectsEnd := by
    refine Tree.redirectsEnd_iff.mpr ⟨fun hr => ?_, fun c hc => ?_⟩
    · rw [Tree.removeChild, Tree.children_node, htop hr]
      rfl
    · exact hbelow c (List.mem_of_mem_filter hc)
  rcases h.resolve_cases parent with ⟨ht, hid⟩ | ⟨-, hno⟩
  · have hreplaced := (redirectsEnd_replace hw _ ht).mpr hnew
    rwa [hid] at hreplaced
  · rwa [removeChild, replace_of_not_mem hno]

theorem redirectsEnd_ofOptions (options : Options) :
    (ofOptions options : Workbench S C M).RedirectsEnd where
  trees := by
    intro t ht
    obtain rfl : t = .bare [] := by simpa [trees, ofOptions] using ht
    exact Tree.redirectsEnd_bare []
  builders := by simp [ofOptions]

/-- A change of a builder that adds no child. -/
theorem redirectsEnd_amend (hw : w.RedirectsEnd) (name : Text) {s : Setting S C M}
    (hs : ∀ part, s ≠ .child part) : (w.amend name [s]).2.RedirectsEnd := by
  cases hb : w.named? name with
  | none => rwa [amend, hb]
  | some b =>
    obtain ⟨htop, hbelow, habsorbed⟩ := hw.held hb
    obtain ⟨outcome, b', ha, hchildren, habs, hredirect⟩ := w.apply_of_no_child b hs
    rw [amend_one hb, ha]
    refine (redirectsEnd_store hw hb (habs ▸ habsorbed)).mpr ⟨fun hr => ?_, hchildren ▸ hbelow⟩
    rw [hchildren]
    rcases hredirect with hsame | hnone
    · exact htop (hsame ▸ hr)
    · exact hnone

/-- A child that cannot be had leaves a builder as it is. -/
theorem redirectsEnd_unchanged (hw : w.RedirectsEnd) {name : Text} {b : Builder S C M}
    (hb : w.named? name = some b) : (w.store name b).RedirectsEnd :=
  let ⟨htop, hbelow, habsorbed⟩ := hw.held hb
  (redirectsEnd_store hw hb habsorbed).mpr ⟨htop, hbelow⟩

/-- A child that is built for a builder. -/
theorem redirectsEnd_change_built (h : w.Sound) (hw : w.RedirectsEnd) (name part : Text) :
    (w.amend name [.child (.builder part)]).2.RedirectsEnd ↔
      ¬ w.Clashes (.change name (.built part)) := by
  rw [Clashes]
  cases hb : w.named? name with
  | none =>
    rw [amend, hb]
    exact iff_of_true hw (by simp)
  | some b =>
    rw [amend_one hb, apply, prepare]
    cases hp : w.named? part with
    | none => exact iff_of_true (redirectsEnd_unchanged hw hb) (by simp)
    | some p =>
      have hin : InHand (w.build p).2 (w.build p).1 := h.inHand_build hp
      have hattach := redirectsEnd_attach hin (redirectsEnd_step.mpr hw)
        (redirectsEnd_built hw hp) (show (w.build p).2.named? name = some b from hb)
      simpa using hattach

/-- A loose node that becomes the child of a builder. -/
theorem redirectsEnd_change_loose (h : w.Sound) (hw : w.RedirectsEnd) (name label : Text) :
    (w.amend name [.child (.loose label)]).2.RedirectsEnd ↔
      ¬ w.Clashes (.change name (.loose label)) := by
  rw [Clashes]
  cases hb : w.named? name with
  | none =>
    rw [amend, hb]
    exact iff_of_true hw (by simp)
  | some b =>
    rw [amend_one hb, apply, prepare]
    rcases ht : w.take label with ⟨f | c, w'⟩
    · rw [take_error ht]
      exact iff_of_true (redirectsEnd_unchanged hw hb) (by simp)
    · obtain ⟨hc, hw', hbuilders⟩ := hw.take ht
      have hb' : w'.named? name = some b := by rwa [named?, hbuilders]
      have hattach := redirectsEnd_attach (h.inHand_take ht) hw' hc hb'
      simpa using hattach

/-- A node that a builder builds into the tree. -/
theorem redirectsEnd_register (h : w.Sound) (hw : w.RedirectsEnd) (name : Text) :
    (w.perform (.register name)).2.RedirectsEnd ↔ ¬ w.Clashes (.register name) := by
  rw [Clashes]
  cases hb : w.named? name with
  | none =>
    rw [perform, hb]
    exact iff_of_true hw (by simp)
  | some b =>
    have hin : InHand (w.build b).2 (w.build b).1 := h.inHand_build hb
    have hroot : (w.build b).2.resolve w.root.id = w.root :=
      resolve_of_among hin.sound.ids ⟨w.root, List.mem_cons_self, .top⟩
    have hnone : w.root.redirect = none := by rw [Tree.redirect, h.root_traits]; rfl
    have hadd := redirectsEnd_addChild hin (redirectsEnd_step.mpr hw) (redirectsEnd_built hw hb)
      w.root.id
    rw [hroot, hnone] at hadd
    rw [perform_register hb]
    simpa using hadd

/-- A call keeps redirecting nodes without children exactly if it does not clash. -/
theorem redirectsEnd_perform (h : w.Sound) (hw : w.RedirectsEnd) (call : Call S C M) :
    (w.perform call).2.RedirectsEnd ↔ ¬ w.Clashes call := by
  cases call with
  | start name kind =>
    refine iff_of_true ⟨fun t ht => ?_, fun p hp => ?_⟩ fun hc => hc
    · have hsub : (w.without name).trees ⊆ w.trees := (trees_without_sublist w name).subset
      exact hw.trees t (hsub ((trees_store w name (.ofKind kind)).subset ht))
    · rcases List.mem_cons.mp hp with rfl | hp
      · exact fun _ => rfl
      · exact hw.builders p (List.mem_of_mem_filter hp)
  | change name change =>
    cases change with
    | built part => exact redirectsEnd_change_built h hw name part
    | loose label => exact redirectsEnd_change_loose h hw name label
    | command | requirement | contextRequirement | provider | forward =>
      exact iff_of_true (redirectsEnd_amend hw name fun part => nofun) fun hc => hc
  | build name label =>
    refine iff_of_true ?_ fun hc => hc
    rw [perform]
    cases hb : w.named? name with
    | none => exact hw
    | some b =>
      exact redirectsEnd_putAside (redirectsEnd_step.mpr hw) (redirectsEnd_built hw hb) label
  | clone target label =>
    refine iff_of_true ?_ fun hc => hc
    rw [perform]
    cases w.locate target with
    | error f => exact hw
    | ok i =>
      have hcopy : ((w.resolve i).copy w.step).RedirectsEnd := (hw.resolve h i).copy w.step
      exact redirectsEnd_putAside (redirectsEnd_step.mpr hw) hcopy label
  | register name => exact redirectsEnd_register h hw name
  | add target label =>
    rw [perform, Clashes]
    cases w.locate target with
    | error f => exact iff_of_true hw (by simp)
    | ok parent =>
      dsimp only
      rcases ht : w.take label with ⟨f | c, w'⟩
      · rw [take_error ht]
        exact iff_of_true hw (by simp)
      · obtain ⟨hc, hw', -⟩ := hw.take ht
        simpa using redirectsEnd_addChild (h.inHand_take ht) hw' hc parent
  | remove target name =>
    refine iff_of_true ?_ fun hc => hc
    rw [perform]
    cases w.locate target with
    | error f => exact hw
    | ok parent => exact redirectsEnd_removeChild h hw parent name

/-- Redirecting nodes stay without children through any calls until one clashes, and no longer. -/
theorem redirectsEnd_run_iff (options : Options) (calls : List (Call S C M)) :
    (∀ before, before <+: calls → (run options before).RedirectsEnd) ↔
      ∀ before call, before ++ [call] <+: calls → ¬ (run options before).Clashes call := by
  induction calls using List.reverseRecOn with
  | nil =>
    refine iff_of_true (fun before h => ?_) fun before call h => ?_
    · rw [List.prefix_nil.mp h]
      exact redirectsEnd_ofOptions options
    · simp at h
  | append_singleton calls c ih =>
    have hstep := fun hr => redirectsEnd_perform (sound_run options calls) hr c
    rw [← run_append_one] at hstep
    constructor
    · intro h before call hp
      have hbefore := fun b (hb : b <+: calls) => h b (hb.trans (List.prefix_append calls [c]))
      rcases List.prefix_concat_iff.mp hp with heq | hp
      · obtain ⟨rfl, rfl⟩ := List.append_singleton_inj.mp heq
        exact (hstep (hbefore before List.prefix_rfl)).mp (h _ List.prefix_rfl)
      · exact ih.mp hbefore before call hp
    · intro h before hp
      have hbefore := ih.mpr fun b call (hb : b ++ [call] <+: calls) =>
        h b call (hb.trans (List.prefix_append calls [c]))
      rcases List.prefix_concat_iff.mp hp with rfl | hp
      · exact (hstep (hbefore calls List.prefix_rfl)).mpr (h calls c List.prefix_rfl)
      · exact hbefore before hp

/-- An alias of the root is registered, and then a command of the same name that has a child. -/
def aliasTwice : List (Call Unit Unit Unit) :=
  [.start (text "alias") (.literal (text "alias")),
    .change (text "alias") (.forward (some (.path [])) none false),
    .register (text "alias"),
    .start (text "go") (.literal (text "go")),
    .start (text "again") (.literal (text "alias")),
    .change (text "again") (.built (text "go")),
    .register (text "again")]

/-- Registering commands can give a child to a node that redirects. -/
theorem redirect_gains_child :
    ¬ ∀ (options : Options) (calls : List (Call Unit Unit Unit)),
      (run options calls).root.RedirectsEnd := by
  intro h
  have hend := h ⟨true, .standard⟩ aliasTwice
  revert hend
  decide +kernel

end Workbench

end CommandTree
