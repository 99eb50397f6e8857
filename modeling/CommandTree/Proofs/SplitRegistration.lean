import CommandTree.Proofs.Registration
import CommandTree.Proofs.Shape

/-!
Registering a command with all of its children, or again and again with one child at a time. A
registration adds to the root a node of the builder's own traits, which has the children that were built
for it. Main statement: merging is associative, and so both ways end in a tree of the same shape, also
where children have the same name or the command is there already.
-/

namespace CommandTree

namespace Change

variable {S C M : Type}

/-- Whether a change gives a builder something of its own: neither a child nor a redirect. -/
def isOwn : Change S C M → Bool
  | built _ => false
  | loose _ => false
  | forward target _ _ => target.isNone
  | _ => true

end Change

/-- Begins a builder of a word, gives it what it has of its own and then children from other builders, and
registers it. -/
def Call.registration {S C M : Type} (name word : Text) (own : List (Change S C M))
    (parts : List Text) : List (Call S C M) :=
  (.start name (.literal word) :: own.map (.change name)) ++
    (parts.map (fun p => .change name (.built p)) ++ [.register name])

namespace Workbench

variable {S C M : Type} {w : Workbench S C M}

/-- Makes calls one after another up to the first that fails. -/
def performAll (w : Workbench S C M) : List (Call S C M) → Work S C M Unit
  | [] => (.ok (), w)
  | call :: calls =>
    match w.perform call with
    | (.ok (), w) => w.performAll calls
    | failed => failed

theorem performAll_cons {call : Call S C M} {w' : Workbench S C M} (h : w.perform call = (.ok (), w'))
    (calls : List (Call S C M)) : w.performAll (call :: calls) = w'.performAll calls := by
  rw [performAll, h]

theorem performAll_append {calls : List (Call S C M)} {w' : Workbench S C M}
    (h : w.performAll calls = (.ok (), w')) (more : List (Call S C M)) :
    w.performAll (calls ++ more) = w'.performAll more := by
  induction calls generalizing w with
  | nil =>
    obtain rfl : w = w' := congrArg Prod.snd h
    rfl
  | cons call calls ih =>
    rw [performAll] at h
    rcases hcall : w.perform call with ⟨_ | _, w₁⟩ <;> rw [hcall] at h
    · cases h
    · rw [List.cons_append, performAll_cons hcall]
      exact ih h

theorem Sound.performAll (hw : w.Sound) (calls : List (Call S C M)) : (w.performAll calls).2.Sound := by
  induction calls generalizing w with
  | nil => exact hw
  | cons call calls ih =>
    have hcall := hw.perform call
    rw [Workbench.performAll]
    rcases h : w.perform call with ⟨_ | _, w₁⟩ <;> rw [h] at hcall
    · exact hcall
    · exact ih hcall

/-! Changes of a builder under a name -/

theorem store_store (w : Workbench S C M) (name : Text) (b b' : Builder S C M) :
    (w.store name b).store name b' = w.store name b' := by
  simp [store, List.filter_filter]

/-- A builder of a word that has neither children nor a redirect. -/
structure Unfilled (word : Text) (b : Builder S C M) : Prop where
  kind : b.kind = .literal word
  redirect : b.redirect = none
  children : b.children = []

/-- What is a builder's own can be set, whatever else is on the workbench. -/
theorem apply_own {word : Text} {b : Builder S C M} (hb : Unfilled word b) {change : Change S C M}
    (h : change.isOwn) :
    ∃ b', Unfilled word b' ∧ ∀ w : Workbench S C M, w.apply b change.setting = (.ok (), b', w) := by
  cases change with
  | command c => exact ⟨{ b with command := some c }, ⟨hb.kind, hb.redirect, hb.children⟩, fun w => by
      rw [Change.setting, apply]⟩
  | requirement p => exact ⟨{ b with requirement := some p }, ⟨hb.kind, hb.redirect, hb.children⟩,
      fun w => by rw [Change.setting, apply]⟩
  | contextRequirement p =>
    exact ⟨{ b with contextRequirement := some p }, ⟨hb.kind, hb.redirect, hb.children⟩, fun w => by
      rw [Change.setting, apply]⟩
  | provider p =>
    have hsame : b.suggests p = b := by simp [Builder.suggests, hb.kind]
    exact ⟨b, hb, fun w => by rw [Change.setting, apply, hsame]⟩
  | built | loose => cases h
  | forward target modifier forks =>
    obtain rfl := Option.isNone_iff_eq_none.mp h
    have hset : b.forward none modifier forks =
        .ok { b with redirect := none, modifier, forks } := by
      rw [Builder.forward, hb.children]
      rfl
    exact ⟨{ b with redirect := none, modifier, forks }, ⟨hb.kind, rfl, hb.children⟩, fun w => by
      rw [Change.setting, apply, hset]⟩

/-- A builder that is begun and given what it has of its own is the same on every workbench. -/
theorem performAll_begin (name word : Text) {own : List (Change S C M)} (hown : ∀ c ∈ own, c.isOwn) :
    ∃ b, Unfilled word b ∧ ∀ w : Workbench S C M,
      w.performAll (.start name (.literal word) :: own.map (.change name)) =
        (.ok (), w.store name b) := by
  induction own using List.reverseRecOn with
  | nil => exact ⟨.ofKind (.literal word), ⟨rfl, rfl, rfl⟩, fun w => rfl⟩
  | append_singleton own change ih =>
    obtain ⟨b, hb, hbegin⟩ := ih fun c hc => hown c (List.mem_append_left _ hc)
    obtain ⟨b', hb', happly⟩ := apply_own hb (hown change (by simp))
    refine ⟨b', hb', fun w => ?_⟩
    have hperform : (w.store name b).perform (.change name change) = (.ok (), w.store name b') := by
      rw [perform, amend, named?_store]
      dsimp only
      rw [happly]
      dsimp only
      rw [amend, store_store]
    rw [List.map_append, ← List.cons_append, performAll_append (hbegin w)]
    exact performAll_cons hperform []

/-! Children built from other builders -/

/-- What is built from the builder of a name. -/
def part (w : Workbench S C M) (name : Text) : Tree S C M :=
  match w.named? name with
  | some b => b.build 0
  | none => .bare []

/-- There is a builder of a name, and what it builds can be a child. -/
def HasPart (w : Workbench S C M) (name : Text) : Prop :=
  ∃ b, w.named? name = some b ∧ b.kind.isRoot = false

theorem namesDistinct_part (hw : w.Sound) {name : Text} (h : w.HasPart name) :
    (w.part name).NamesDistinct := by
  obtain ⟨b, hb, -⟩ := h
  have hnode : (Tree.node [] b.toTraits b.children).NamesDistinct :=
    Tree.namesDistinct_iff.mpr (hw.siblings hb)
  rw [part, hb]
  exact hnode.copy 0

theorem shape_build (b : Builder S C M) (step : Nat) :
    (b.build step).shape = (Tree.node [] b.toTraits b.children).shape :=
  Tree.shape_copy step (.node [] b.toTraits b.children)

theorem perform_built {name p : Text} {b c : Builder S C M} (hb : w.named? name = some b)
    (hc : w.named? p = some c) (hredirect : b.redirect = none) (hroot : c.kind.isRoot = false) :
    w.perform (.change name (.built p)) =
      (.ok (), { w.store name (b.withChild (w.step + 1) (c.build w.step)) with step := w.step + 2 }) := by
  have hprepare : w.prepare (.builder p) = (.ok (c.build w.step), { w with step := w.step + 1 }) := by
    rw [prepare, hc]
    rfl
  have hadd : b.addChild (w.step + 1) (c.build w.step) =
      .ok (b.withChild (w.step + 1) (c.build w.step)) := by
    have hisRoot : (c.build w.step).isRoot = false := hroot
    rw [Builder.addChild, hredirect, hisRoot]
    rfl
  rw [perform, Change.setting, amend_child hb hprepare, attach, hadd]
  rfl

/-- Children that are added one after another are merged among themselves. The root and all other
builders stay as they are. -/
theorem performAll_built {name : Text} {parts : List Text} {b : Builder S C M} {t : Tree S C M}
    (hw : w.Sound) (hb : w.named? name = some b) (hredirect : b.redirect = none)
    (hparts : ∀ p ∈ parts, p ≠ name ∧ w.HasPart p) (ht : t.NamesDistinct)
    (hshape : (Tree.node [] b.toTraits b.children).shape = t.shape) :
    ∃ w' b', w.performAll (parts.map fun p => .change name (.built p)) = (.ok (), w') ∧ w'.Sound ∧
      w'.root = w.root ∧ (∀ n ≠ name, w'.named? n = w.named? n) ∧ w'.named? name = some b' ∧
      b'.toTraits = b.toTraits ∧
      (Tree.node [] b.toTraits b'.children).shape =
        ((parts.map w.part).foldl (Tree.gain 0) t).shape := by
  induction parts generalizing w b t with
  | nil => exact ⟨w, b, rfl, hw, rfl, fun n _ => rfl, hb, rfl, hshape⟩
  | cons p parts ih =>
    obtain ⟨⟨hne, hpart⟩, hparts⟩ := List.forall_mem_cons.mp hparts
    obtain ⟨c, hc, hroot⟩ := id hpart
    have hperform := perform_built hb hc hredirect hroot
    have hsound := hw.perform (.change name (.built p))
    rw [hperform] at hsound
    generalize hw₁ : ({ w.store name (b.withChild (w.step + 1) (c.build w.step)) with
      step := w.step + 2 } : Workbench S C M) = w₁ at hperform hsound
    have hothers : ∀ n ≠ name, w₁.named? n = w.named? n := fun n hn =>
      hw₁ ▸ named?_store_of_ne hn w _
    have hsame : ∀ q ∈ parts, w₁.part q = w.part q := fun q hq => by
      rw [part, hothers q (hparts q hq).1, part]
    have hnode : (Tree.node [] b.toTraits b.children).NamesDistinct :=
      Tree.namesDistinct_iff.mpr (hw.siblings hb)
    have hbuilt : (c.build w.step).shape = (w.part p).shape := by
      rw [part, hc, shape_build, shape_build]
    have hdistinct : (c.build w.step).NamesDistinct :=
      (namesDistinct_part hw hpart).of_shape hbuilt.symm
    obtain ⟨w', b', hall, hsound', hroot', hothers', hb', htraits, hshape'⟩ := ih hsound
      (b := b.withChild (w.step + 1) (c.build w.step)) (hw₁ ▸ named?_store w name _) hredirect
      (fun q hq => ⟨(hparts q hq).1, (hparts q hq).2.imp fun d hd =>
        ⟨(hothers q (hparts q hq).1).trans hd.1, hd.2⟩⟩)
      (ht.gain (namesDistinct_part hw hpart) 0)
      (Tree.shape_gain_congr hnode hdistinct hshape hbuilt (w.step + 1) 0)
    refine ⟨w', b', (performAll_cons hperform _).trans hall, hsound', hroot'.trans (hw₁ ▸ rfl),
      fun n hn => (hothers' n hn).trans (hothers n hn), hb', htraits, ?_⟩
    rw [List.map_cons, List.foldl_cons, ← List.map_congr_left hsame]
    exact hshape'

/-! Registrations -/

/-- A registration adds a child to the root. -/
theorem perform_register_ok (hw : w.Sound) {name : Text} {b : Builder S C M}
    (hb : w.named? name = some b) (hroot : b.kind.isRoot = false) :
    ∃ w', w.perform (.register name) = (.ok (), w') ∧
      w'.root = w.root.gain (w.step + 1) (b.build w.step) ∧ w'.builders = w.builders := by
  have hadd : (w.build b).2.addChild w.root.id (b.build w.step) =
      (.ok (), (w.build b).2.withChild w.root (b.build w.step)) :=
    addChild_of_among hw.ids ⟨w.root, List.mem_cons_self, .top⟩ hroot
  have htop : ∀ new : Tree S C M, w.root.replaceAt w.root.id new = new := fun new => by
    cases w.root
    exact if_pos rfl
  have hreplace : (w.build b).2.replace w.root.id ((w.build b).2.grown w.root (b.build w.step)) =
      { (w.build b).2 with root := (w.build b).2.grown w.root (b.build w.step) } := by
    refine (replace_of_not_mem_tail (w := (w.build b).2) hw.root_not_mem _).trans ?_
    exact congrArg (fun root => { (w.build b).2 with root }) (htop _)
  refine ⟨(w.build b).2.withChild w.root (b.build w.step), (perform_register_eq hb).trans hadd, ?_⟩
  unfold withChild
  rw [hreplace]
  split <;> exact ⟨rfl, rfl⟩

/-- What is known of a workbench after the registration of a command: it is in order, all other builders
are as they were, and the root has one more child. -/
structure Registered (name : Text) (w w' : Workbench S C M) (command : Tree S C M) : Prop where
  sound : w'.Sound
  others : ∀ n ≠ name, w'.named? n = w.named? n
  root : w'.root.shape = (w.root.gain 0 command).shape

section

variable {name word : Text} {own : List (Change S C M)} {b : Builder S C M}

/-- A registration adds to the root a node of the builder's own traits with the children that were built
for it. -/
theorem performAll_registration (hb : Unfilled word b)
    (hbegin : ∀ w : Workbench S C M,
      w.performAll (.start name (.literal word) :: own.map (.change name)) = (.ok (), w.store name b))
    {parts : List Text} (hw : w.Sound) (hparts : ∀ p ∈ parts, p ≠ name ∧ w.HasPart p) :
    ∃ w', w.performAll (Call.registration name word own parts) = (.ok (), w') ∧
      Registered name w w' ((parts.map w.part).foldl (Tree.gain 0) (.node [] b.toTraits [])) := by
  have hstored : (w.store name b).Sound := by
    have h := hw.performAll (.start name (.literal word) :: own.map (.change name))
    rwa [hbegin w] at h
  have hother : ∀ n ≠ name, (w.store name b).named? n = w.named? n := fun n hn =>
    named?_store_of_ne hn w b
  have hsame : ∀ p ∈ parts, (w.store name b).part p = w.part p := fun p hp => by
    rw [part, hother p (hparts p hp).1, part]
  have hempty : (Tree.node [] b.toTraits [] : Tree S C M).NamesDistinct :=
    Tree.namesDistinct_iff.mpr ⟨List.nodup_nil, by simp⟩
  obtain ⟨w₁, b₁, hbuilt, hsound₁, hroot₁, hothers₁, hb₁, htraits, hshape⟩ :=
    performAll_built hstored (named?_store w name b) hb.redirect
      (fun p hp => ⟨(hparts p hp).1, (hparts p hp).2.imp fun c hc =>
        ⟨(hother p (hparts p hp).1).trans hc.1, hc.2⟩⟩)
      hempty (by rw [hb.children])
  rw [List.map_congr_left hsame] at hshape
  have hword : b₁.kind.isRoot = false := by
    rw [htraits, hb.kind]
    rfl
  obtain ⟨w', hregister, hroot, hbuilders⟩ := perform_register_ok hsound₁ hb₁ hword
  have hsound' := hsound₁.perform (.register name)
  rw [hregister] at hsound'
  have hdistinct : (Tree.node [] b₁.toTraits b₁.children).NamesDistinct :=
    Tree.namesDistinct_iff.mpr (hsound₁.siblings hb₁)
  refine ⟨w', ?_, hsound', fun n hn => ?_, ?_⟩
  · rw [Call.registration, performAll_append (hbegin w), performAll_append hbuilt]
    exact performAll_cons hregister []
  · rw [named?, hbuilders]
    exact (hothers₁ n hn).trans (hother n hn)
  · rw [hroot, hroot₁]
    refine Tree.shape_gain_congr (hw.names w.root List.mem_cons_self) (hdistinct.copy w₁.step) rfl ?_ ..
    rw [Tree.shape_copy, htraits]
    exact hshape

/-- Registrations with one child each add to the root one node after another. -/
theorem performAll_registrations (hb : Unfilled word b)
    (hbegin : ∀ w : Workbench S C M,
      w.performAll (.start name (.literal word) :: own.map (.change name)) = (.ok (), w.store name b))
    {parts : List Text} {r : Tree S C M} (hw : w.Sound)
    (hparts : ∀ p ∈ parts, p ≠ name ∧ w.HasPart p) (hr : w.root.shape = r.shape) :
    ∃ w', w.performAll (parts.flatMap fun p => Call.registration name word own [p]) = (.ok (), w') ∧
      w'.root.shape =
        ((parts.map w.part).foldl (fun r t => r.gain 0 (.node [] b.toTraits [t])) r).shape := by
  induction parts generalizing w r with
  | nil => exact ⟨w, rfl, hr⟩
  | cons p parts ih =>
    obtain ⟨hp, hparts⟩ := List.forall_mem_cons.mp hparts
    obtain ⟨w₁, hfirst, hsound, hothers, hroot⟩ := performAll_registration hb hbegin hw
      (List.forall_mem_singleton.mpr hp)
    have hsame : ∀ q ∈ parts, w₁.part q = w.part q := fun q hq => by
      rw [part, hothers q (hparts q hq).1, part]
    have hone : (Tree.node [] b.toTraits [w.part p]).NamesDistinct :=
      Tree.namesDistinct_one (namesDistinct_part hw hp.2)
    have hnext : w₁.root.shape = (r.gain 0 (.node [] b.toTraits [w.part p])).shape :=
      hroot.trans
        (Tree.shape_gain_congr (hw.names w.root List.mem_cons_self) hone hr rfl 0 0)
    obtain ⟨w', hrest, hroot'⟩ := ih hsound
      (fun q hq => ⟨(hparts q hq).1, (hparts q hq).2.imp fun c hc =>
        ⟨(hothers q (hparts q hq).1).trans hc.1, hc.2⟩⟩) hnext
    refine ⟨w', ?_, ?_⟩
    · rw [List.flatMap_cons, performAll_append hfirst, hrest]
    · rw [hroot', List.map_congr_left hsame, List.map_cons, List.foldl_cons]

end

/-- Merging is associative, but for the identities of copies. So a command of its own traits, without a
redirect, that is registered with all of its children makes the same tree as when it is registered again and
again with one of the children at a time, in their order; no call fails either way. -/
theorem split_registration :
    (∀ a b c : Tree S C M, a.NamesDistinct → b.NamesDistinct → c.NamesDistinct → ∀ s₁ s₂ s₃ s₄,
      (Tree.absorb s₂ (Tree.absorb s₁ a b) c).shape =
        (Tree.absorb s₄ a (Tree.absorb s₃ b c)).shape) ∧
    ∀ (options : Options) (calls : List (Call S C M)) (name word : Text) (own : List (Change S C M))
      (parts : List Text), (∀ c ∈ own, c.isOwn) → parts ≠ [] →
      (∀ p ∈ parts, p ≠ name ∧ (run options calls).HasPart p) →
      ∃ once split,
        (run options calls).performAll (Call.registration name word own parts) = (.ok (), once) ∧
        (run options calls).performAll (parts.flatMap fun p => Call.registration name word own [p]) =
          (.ok (), split) ∧
        once.root.shape = split.root.shape := by
  refine ⟨fun a b c ha hb hc => Tree.shape_absorb_absorb ha hb hc,
    fun options calls name word own parts hown hne hparts => ?_⟩
  generalize hw : run options calls = w at hparts
  have hsound : w.Sound := hw ▸ sound_run options calls
  obtain ⟨b, hb, hbegin⟩ := performAll_begin name word hown
  obtain ⟨once, honce, -, -, hroot⟩ := performAll_registration hb hbegin hsound hparts
  obtain ⟨split, hsplit, hroot'⟩ := performAll_registrations hb hbegin hsound hparts rfl
  refine ⟨once, split, honce, hsplit, ?_⟩
  cases parts with
  | nil => exact absurd rfl hne
  | cons p parts =>
    have hdistinct : ∀ t ∈ (p :: parts).map w.part, t.NamesDistinct := by
      intro t ht
      obtain ⟨q, hq, rfl⟩ := List.mem_map.mp ht
      exact namesDistinct_part hsound (hparts q hq).2
    obtain ⟨hfirst, hrest⟩ := List.forall_mem_cons.mp hdistinct
    rw [hroot, hroot', List.map_cons, List.foldl_cons, List.foldl_cons]
    exact (Tree.shape_foldl_gain hrest (hsound.names w.root List.mem_cons_self)
      (Tree.namesDistinct_one hfirst) rfl rfl).symm

/-- A word, with another one behind it. -/
def phrase (i : Nat) (first second : Text) : Tree Unit Unit Unit :=
  .node [i] (.ofKind (.literal first)) [.node [i + 1] (.ofKind (.literal second)) []]

/-- `say` is registered, and two ways to go on from it have the same word. -/
def speech : List (Call Unit Unit Unit) :=
  [.start (text "there") (.literal (text "there")),
    .change (text "there") (.command ()),
    .start (text "world") (.literal (text "world")),
    .start (text "short") (.literal (text "hello")),
    .change (text "short") (.built (text "there")),
    .start (text "long") (.literal (text "hello")),
    .change (text "long") (.command ()),
    .change (text "long") (.built (text "world")),
    .start (text "first") (.literal (text "say")),
    .change (text "first") (.built (text "world")),
    .register (text "first")]

/-- Both children that are called `hello` are there as one, whose command is the one of the second. -/
theorem split_registration_speech :
    (Tree.absorb 7 (Tree.absorb 6 (phrase 0 (text "hello") (text "there"))
        (phrase 2 (text "hello") (text "world"))) (phrase 4 (text "hello") (text "there"))).shape =
      (Tree.absorb 7 (phrase 0 (text "hello") (text "there"))
        (Tree.absorb 6 (phrase 2 (text "hello") (text "world"))
          (phrase 4 (text "hello") (text "there")))).shape ∧
    ∃ once split : Workbench Unit Unit Unit,
      (run ⟨true, .standard⟩ speech).performAll
        (Call.registration (text "say") (text "say") [.command ()] [text "short", text "long"]) =
          (.ok (), once) ∧
      (run ⟨true, .standard⟩ speech).performAll
        (Call.registration (text "say") (text "say") [.command ()] [text "short"] ++
          Call.registration (text "say") (text "say") [.command ()] [text "long"]) =
          (.ok (), split) ∧
      once.root.shape = split.root.shape ∧
      once.root.namesAt [text "say"] = [text "world", text "hello"] ∧
      once.root.namesAt [text "say", text "hello"] = [text "there", text "world"] ∧
      (once.root.descend? [text "say", text "hello"]).map Tree.command = some (some ()) := by
  obtain ⟨hassoc, hregister⟩ := split_registration (S := Unit) (C := Unit) (M := Unit)
  refine ⟨hassoc _ _ _ (by decide +kernel) (by decide +kernel) (by decide +kernel) 6 7 6 7, ?_⟩
  have hshort : (run ⟨true, .standard⟩ speech).HasPart (text "short") := ⟨_, rfl, rfl⟩
  have hlong : (run ⟨true, .standard⟩ speech).HasPart (text "long") := ⟨_, rfl, rfl⟩
  obtain ⟨once, split, honce, hsplit, hshape⟩ := hregister ⟨true, .standard⟩ speech (text "say")
    (text "say") [.command ()] [text "short", text "long"] (List.forall_mem_singleton.mpr rfl)
    (List.cons_ne_nil _ _)
    (List.forall_mem_cons.mpr ⟨⟨by decide, hshort⟩, List.forall_mem_singleton.mpr ⟨by decide, hlong⟩⟩)
  refine ⟨once, split, honce, hsplit, hshape, ?_⟩
  obtain rfl := congrArg Prod.snd honce
  exact ⟨by decide +kernel, by decide +kernel, by decide +kernel⟩

end Workbench

end CommandTree
