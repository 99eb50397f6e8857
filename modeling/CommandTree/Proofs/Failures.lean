import CommandTree.Proofs.Calls

/-!
Calls that fail: a root that is to become a child, children for a builder that redirects, a redirect for a
builder with children, names and labels that lead nowhere. Main statement: they leave the tree, all builders
and all loose trees as they were.
-/

namespace CommandTree

/-- What a host does: it makes a call, or holds on to any node, which a label then means. -/
inductive Act (S C M : Type)
  | call (call : Call S C M)
  | hold (label : Text) (id : NodeId)

namespace Workbench

variable {S C M : Type} {w : Workbench S C M}

/-- Does what a host does. -/
def act (w : Workbench S C M) : Act S C M → Work S C M Unit
  | .call call => w.perform call
  | .hold label id => (.ok (), w.label label id)

/-- Does things one after another, also after one that fails. -/
def runActs (options : Options) (acts : List (Act S C M)) : Workbench S C M :=
  acts.foldl (fun w a => (w.act a).2) (.ofOptions options)

theorem runActs_calls (options : Options) (calls : List (Call S C M)) :
    runActs options (calls.map .call) = run options calls := by
  rw [runActs, run, List.foldl_map]
  rfl

theorem Sound.act (h : w.Sound) (a : Act S C M) : (w.act a).2.Sound := by
  cases a with
  | call call => exact h.perform call
  | hold label i => exact ⟨h.root_id, h.root_traits, h.fresh, h.names, h.builders⟩

/-- The tree, all builders and all loose trees are as they were. -/
structure Untouched (w w' : Workbench S C M) : Prop where
  root : w'.root = w.root
  builders : ∀ name, w'.named? name = w.named? name
  loose : ∀ t ∈ w.loose, t ∈ w'.loose

theorem Untouched.refl (w : Workbench S C M) : w.Untouched w := ⟨rfl, fun _ => rfl, fun _ ht => ht⟩

theorem Untouched.keep {w' : Workbench S C M} (h : w.Untouched w') (c : Tree S C M) :
    w.Untouched (w'.keep c) :=
  ⟨h.root, h.builders, fun t ht => List.mem_append_left _ (h.loose t ht)⟩

theorem untouched_build (w : Workbench S C M) (b : Builder S C M) : w.Untouched (w.build b).2 :=
  ⟨rfl, fun _ => rfl, fun _ ht => ht⟩

/-- A builder is put back as it was. -/
theorem Untouched.store {w' : Workbench S C M} (h : w.Untouched w') {name : Text} {b : Builder S C M}
    (hb : w.named? name = some b) : w.Untouched (w'.store name b) := by
  refine ⟨h.root, fun n => ?_, h.loose⟩
  by_cases hn : n = name
  · rw [hn, named?_store, hb]
  · rw [named?_store_of_ne hn, h.builders]

/-- A loose node is taken and put back. -/
theorem untouched_take (hw : w.Sound) {label : Text} {c : Tree S C M} {w' : Workbench S C M}
    (ht : w.take label = (.ok c, w')) : w.Untouched (w'.keep c) := by
  obtain ⟨hc, rfl⟩ := take_ok ht
  refine ⟨rfl, fun _ => rfl, fun t ht => ?_⟩
  by_cases hid : t.id = c.id
  · have hloose : ∀ u ∈ w.loose, u ∈ w.trees := fun u hu =>
      List.mem_cons_of_mem _ (List.mem_append_left _ hu)
    obtain rfl := Tree.eq_of_common_id hw.ids (hloose t ht) (hloose c hc) Tree.Has.top.id_mem
      (hid ▸ Tree.Has.top.id_mem)
    exact List.mem_append_right _ (List.mem_singleton_self t)
  · exact List.mem_append_left _ (List.mem_filter.mpr ⟨ht, by simpa using hid⟩)

theorem addChild_error {parent : NodeId} {c : Tree S C M} {f : Fault}
    (h : (w.addChild parent c).1 = .error f) : (w.addChild parent c).2 = w.keep c := by
  rw [addChild] at h ⊢
  dsimp only at h ⊢
  cases hadd : (w.resolve parent).addChild w.step c with
  | error f' => rfl
  | ok t =>
    rw [hadd] at h
    cases h

/-- A setting that fails leaves the builder as it was. -/
theorem apply_error {b : Builder S C M} {set : Setting S C M} (hset : ∀ part, set ≠ .child part)
    {f : Fault} (h : (w.apply b set).1 = .error f) : (w.apply b set).2 = (b, w) := by
  cases set with
  | child part => exact absurd rfl (hset part)
  | command | requirement | contextRequirement | provider =>
    rw [apply] at h
    cases h
  | forward target modifier forks =>
    cases target with
    | none =>
      rw [apply] at h ⊢
      cases hforward : b.forward none modifier forks with
      | error f' => rfl
      | ok b' =>
        rw [hforward] at h
        cases h
    | some target =>
      rw [apply] at h ⊢
      cases hl : w.locate target with
      | error f' => rfl
      | ok i =>
        rw [hl] at h
        dsimp only at h ⊢
        cases hforward : b.forward (some i) modifier forks with
        | error f' => rfl
        | ok b' =>
          rw [hforward] at h
          cases h

theorem untouched_attach {w' : Workbench S C M} {name : Text} {b : Builder S C M} {c : Tree S C M}
    (hb : w.named? name = some b) (h : w.Untouched (w'.keep c)) {f : Fault}
    (herror : (w'.attach b c).1 = .error f) :
    w.Untouched ((w'.attach b c).2.2.store name (w'.attach b c).2.1) := by
  rcases attach_cases w' b c with ⟨-, -, ha⟩ | ⟨-, f', ha⟩
  · rw [ha] at herror
    cases herror
  · rw [ha]
    exact h.store hb

/-- A change of a builder that fails. -/
theorem untouched_change (hw : w.Sound) {name : Text} (change : Change S C M) {f : Fault}
    (h : (w.amend name [change.setting]).1 = .error f) :
    w.Untouched (w.amend name [change.setting]).2 := by
  cases hb : w.named? name with
  | none =>
    rw [amend, hb]
    exact .refl w
  | some b =>
    have hchild : ∀ part : Part S C M,
        (∃ n, part = .builder n) ∨ (∃ label, part = .loose label) →
        (w.amend name [.child part]).1 = .error f → w.Untouched (w.amend name [.child part]).2 := by
      intro part hpart h
      rcases w.prepare_cases hpart with ⟨f', hp⟩ | ⟨n, b', -, hp⟩ | ⟨label, c, w', ht, hp⟩
      · rw [amend_one hb, apply, hp]
        exact (Untouched.refl w).store hb
      · rw [amend_child hb hp] at h ⊢
        exact untouched_attach hb ((untouched_build w b').keep _) h
      · rw [amend_child hb hp] at h ⊢
        exact untouched_attach hb (untouched_take hw ht) h
    have hplain : (∀ part, change.setting ≠ .child part) →
        w.Untouched (w.amend name [change.setting]).2 := by
      intro hset
      have herror : (w.apply b change.setting).1 = .error f := by
        rw [amend, hb] at h
        dsimp only at h
        rcases happly : w.apply b change.setting with ⟨f' | _, b', w'⟩ <;> rw [happly] at h
        · exact h
        · cases h
      rw [amend_one hb, apply_error hset herror]
      exact (Untouched.refl w).store hb
    cases change with
    | built part => exact hchild _ (.inl ⟨part, rfl⟩) h
    | loose label => exact hchild _ (.inr ⟨label, rfl⟩) h
    | command | requirement | contextRequirement | provider | forward =>
      exact hplain (by simp [Change.setting])

/-- A call that fails. -/
theorem untouched_of_error (hw : w.Sound) {a : Act S C M} {f : Fault} (h : (w.act a).1 = .error f) :
    w.Untouched (w.act a).2 := by
  cases a with
  | hold label i => cases h
  | call call =>
    change (w.perform call).1 = .error f at h
    change w.Untouched (w.perform call).2
    cases call with
    | start name kind => cases h
    | change name change => exact untouched_change hw change h
    | build name label =>
      rw [perform] at h ⊢
      cases hb : w.named? name with
      | none => exact .refl w
      | some b =>
        rw [hb] at h
        cases h
    | clone target label =>
      rw [perform] at h ⊢
      cases hl : w.locate target with
      | error f' => exact .refl w
      | ok i =>
        rw [hl] at h
        cases h
    | register name =>
      cases hb : w.named? name with
      | none =>
        rw [perform, hb]
        exact .refl w
      | some b =>
        rw [perform_register_eq hb] at h ⊢
        rw [addChild_error h]
        exact (untouched_build w b).keep _
    | add target label =>
      rw [perform] at h ⊢
      cases hl : w.locate target with
      | error f' => exact .refl w
      | ok parent =>
        rw [hl] at h
        dsimp only at h ⊢
        rcases ht : w.take label with ⟨f' | c, w'⟩
        · rw [take_error ht]
          exact .refl w
        · rw [ht] at h
          dsimp only at h ⊢
          rw [addChild_error h]
          exact untouched_take hw ht
    | remove target name =>
      rw [perform] at h ⊢
      cases hl : w.locate target with
      | error f' => exact .refl w
      | ok parent =>
        rw [hl] at h
        cases h

end Workbench

end CommandTree
