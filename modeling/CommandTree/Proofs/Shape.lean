import CommandTree.Proofs.Merging

/-!
The shape of a tree is all of it but the identities of its nodes. Where siblings have different names, it is
determined by what stands at each path: the traits of the node there, and the names of its children in
their order. Main statements: merging respects shapes, and is associative up to shape.
-/

namespace CommandTree

namespace Tree

variable {S C M : Type}

mutual
/-- The tree without the identities of its nodes. Redirects keep their targets. -/
def shape : Tree S C M → Tree S C M
  | node _ traits cs => node [] traits (shapeAll cs)

def shapeAll : List (Tree S C M) → List (Tree S C M)
  | [] => []
  | c :: cs => shape c :: shapeAll cs
end

theorem shapeAll_eq_map (cs : List (Tree S C M)) : shapeAll cs = cs.map shape := by
  induction cs with
  | nil => rfl
  | cons c cs ih => rw [shapeAll, ih, List.map_cons]

theorem shape_eq (t : Tree S C M) : t.shape = node [] t.traits (t.children.map shape) := by
  cases t
  rw [shape, shapeAll_eq_map, traits_node, children_node]

/-- Trees have the same shape where their traits are the same, and their children have the same
shapes. -/
theorem shape_eq_shape_iff {t u : Tree S C M} :
    t.shape = u.shape ↔ t.traits = u.traits ∧ t.children.map shape = u.children.map shape := by
  simp [shape_eq t, shape_eq u]

@[simp] theorem traits_shape (t : Tree S C M) : t.shape.traits = t.traits := by rw [shape_eq, traits_node]

@[simp] theorem name_shape (t : Tree S C M) : t.shape.name = t.name := by simp [name, tag]

theorem children_shape (t : Tree S C M) : t.shape.children = t.children.map shape := by
  rw [shape_eq, children_node]

/-- A copy has the shape of what it was made from. -/
@[simp] theorem shape_copy (step : Nat) (t : Tree S C M) : (t.copy step).shape = t.shape := by
  induction t with
  | node id traits cs ih =>
    rw [shape_eq_shape_iff, traits_copy, copy, copyAll_eq_map, children_node, List.map_map]
    exact ⟨rfl, List.map_congr_left ih⟩

theorem map_name_of_shape {cs ds : List (Tree S C M)} (h : cs.map shape = ds.map shape) :
    cs.map name = ds.map name := by
  simpa [Function.comp_def] using congrArg (List.map name) h

theorem child?_shape (t : Tree S C M) (n : Text) : t.shape.child? n = (t.child? n).map shape := by
  rw [child?, children_shape, find?_map_of_name name_shape, child?]

theorem descend?_shape (t : Tree S C M) (path : List Text) :
    t.shape.descend? path = (t.descend? path).map shape := by
  induction path generalizing t with
  | nil => rfl
  | cons n rest ih =>
    rw [descend?, descend?, child?_shape]
    cases t.child? n with
    | none => rfl
    | some c => exact ih c

/-- Whether siblings have different names is a matter of shape. -/
theorem NamesDistinct.of_shape {t u : Tree S C M} (ht : t.NamesDistinct) (h : t.shape = u.shape) :
    u.NamesDistinct := by
  induction u generalizing t with
  | node id traits ds ih =>
    obtain ⟨-, hcs⟩ := shape_eq_shape_iff.mp h
    refine namesDistinct_iff.mpr ⟨?_, fun d hd => ?_⟩
    · rw [← map_name_of_shape hcs]
      exact ht.nodup
    · obtain ⟨c, hc, hcd⟩ := List.mem_map.mp (hcs ▸ List.mem_map_of_mem hd)
      exact ih d hd (ht.child hc) hcd

/-! What stands at a path -/

/-- What is seen of a node at the end of a path. -/
structure Face (S C M : Type) where
  traits : Traits S C M
  /-- The names of the children, in order. -/
  names : List Text

def face (t : Tree S C M) : Face S C M := ⟨t.traits, t.children.map name⟩

def faceAt (t : Tree S C M) (path : List Text) : Option (Face S C M) := (t.descend? path).map face

@[simp] theorem face_shape (t : Tree S C M) : t.shape.face = t.face := by
  simp [face, children_shape, Function.comp_def]

@[simp] theorem face_copy (step : Nat) (t : Tree S C M) : (t.copy step).face = t.face := by
  simp [face, map_name_copy]

theorem faceAt_shape (t : Tree S C M) (path : List Text) : t.shape.faceAt path = t.faceAt path := by
  rw [faceAt, descend?_shape, Option.map_map, faceAt]
  exact congrArg (Option.map · _) (funext face_shape)

theorem faceAt_cons (t : Tree S C M) (n : Text) (path : List Text) :
    t.faceAt (n :: path) = (t.child? n).bind fun c => c.faceAt path := by
  rw [faceAt, descend?]
  cases t.child? n <;> rfl

/-- Siblings of the same names in the same order have the same shapes if those of one name have. -/
theorem map_shape_of_names {cs ds : List (Tree S C M)} (hnames : cs.map name = ds.map name)
    (h : ∀ c ∈ cs, ∀ d ∈ ds, c.name = d.name → c.shape = d.shape) : cs.map shape = ds.map shape := by
  induction cs generalizing ds with
  | nil =>
    obtain rfl := List.map_eq_nil_iff.mp hnames.symm
    rfl
  | cons c cs ih =>
    cases ds with
    | nil => cases hnames
    | cons d ds =>
      obtain ⟨hname, hrest⟩ := List.cons.inj hnames
      rw [List.map_cons, List.map_cons, h c List.mem_cons_self d List.mem_cons_self hname]
      exact congrArg _ (ih hrest fun c' hc d' hd =>
        h c' (List.mem_cons_of_mem c hc) d' (List.mem_cons_of_mem d hd))

/-- Trees in which the same stands at every path have the same shape. -/
theorem shape_eq_of_faces {t u : Tree S C M} (ht : t.NamesDistinct) (hu : u.NamesDistinct)
    (h : ∀ path, t.faceAt path = u.faceAt path) : t.shape = u.shape := by
  induction t generalizing u with
  | node id traits cs ih =>
    have htop : Face.mk traits (cs.map name) = u.face := Option.some.inj (h [])
    obtain ⟨htraits, hnames⟩ := Face.mk.inj htop
    refine shape_eq_shape_iff.mpr ⟨htraits, map_shape_of_names hnames fun c hc d hd hname => ?_⟩
    -- One name leads to both children, so the same stands at every path in them.
    have hleft := (child?_eq_some_iff ht.nodup).mpr ⟨hc, hname⟩
    have hright := (child?_eq_some_iff hu.nodup).mpr ⟨hd, rfl⟩
    refine ih c hc (ht.child hc) (hu.child hd) fun path => ?_
    have hpath := h (d.name :: path)
    rwa [faceAt_cons, hleft, faceAt_cons, hright] at hpath

/-- What stands at a path of two trees after the second was merged into the first. -/
def Face.unite : Option (Face S C M) → Option (Face S C M) → Option (Face S C M)
  | some a, some b => some
    ⟨{ a.traits with command := b.traits.command.or a.traits.command },
      a.names ++ b.names.filter (!a.names.contains ·)⟩
  | some a, none => some a
  | none, b => b

theorem faceAt_absorb (step : Nat) (e : Tree S C M) {i : Tree S C M} (hi : i.NamesDistinct)
    (path : List Text) :
    (absorb step e i).faceAt path = Face.unite (e.faceAt path) (i.faceAt path) := by
  rw [faceAt, descend?_absorb step e hi, faceAt, faceAt]
  cases e.descend? path with
  | none => cases i.descend? path <;> simp [Tree.unite, Face.unite]
  | some e' =>
    cases hd : i.descend? path with
    | none => rfl
    | some i' =>
      have hnames := map_name_absorb step e' (namesDistinct_of_descend hi hd).nodup
      simp only [Tree.unite, Option.map_some, Face.unite, face, traits_absorb, hnames, command,
        List.contains_eq_mem, decide_not]

/-- The names that the second and then the third list add to the first are what the two together add. -/
theorem filter_filter_append (as bs cs : List Text) :
    as ++ bs.filter (!as.contains ·) ++ cs.filter (!(as ++ bs.filter (!as.contains ·)).contains ·) =
      as ++ (bs ++ cs.filter (!bs.contains ·)).filter (!as.contains ·) := by
  rw [List.append_assoc, List.filter_append, List.filter_filter]
  refine congrArg (as ++ ·) (congrArg (_ ++ ·) (List.filter_congr fun n _ => ?_))
  by_cases ha : n ∈ as <;> simp [ha]

theorem Face.unite_assoc (a b c : Option (Face S C M)) :
    Face.unite (Face.unite a b) c = Face.unite a (Face.unite b c) := by
  cases a with
  | none => rfl
  | some a =>
    cases b with
    | none => rfl
    | some b =>
      cases c with
      | none => rfl
      | some c => simp only [Face.unite, filter_filter_append, Option.or_assoc]

theorem NamesDistinct.absorb {e i : Tree S C M} (he : e.NamesDistinct) (hi : i.NamesDistinct)
    (step : Nat) : (absorb step e i).NamesDistinct := (absorb_spec step hi e he).1

/-- Merging respects shapes, at whatever steps it is done. -/
theorem shape_absorb_congr {e e' i i' : Tree S C M} (he : e.NamesDistinct) (hi : i.NamesDistinct)
    (hee : e.shape = e'.shape) (hii : i.shape = i'.shape) (step step' : Nat) :
    (absorb step e i).shape = (absorb step' e' i').shape := by
  have he' := he.of_shape hee
  have hi' := hi.of_shape hii
  refine shape_eq_of_faces (he.absorb hi step) (he'.absorb hi' step') fun path => ?_
  rw [faceAt_absorb step e hi, faceAt_absorb step' e' hi', ← faceAt_shape e, ← faceAt_shape i, hee, hii,
    faceAt_shape, faceAt_shape]

/-- Merging is associative, but for the identities of the copies that it makes. -/
theorem shape_absorb_absorb {a b c : Tree S C M} (ha : a.NamesDistinct) (hb : b.NamesDistinct)
    (hc : c.NamesDistinct) (s₁ s₂ s₃ s₄ : Nat) :
    (absorb s₂ (absorb s₁ a b) c).shape = (absorb s₄ a (absorb s₃ b c)).shape := by
  refine shape_eq_of_faces ((ha.absorb hb s₁).absorb hc s₂) (ha.absorb (hb.absorb hc s₃) s₄)
    fun path => ?_
  rw [faceAt_absorb s₂ _ hc, faceAt_absorb s₁ a hb, faceAt_absorb s₄ a (hb.absorb hc s₃),
    faceAt_absorb s₃ b hc, Face.unite_assoc]

/-! Adding a child -/

/-- The tree with one more child, which is merged where its name is taken. -/
def gain (step : Nat) (t c : Tree S C M) : Tree S C M :=
  node t.id t.traits (insertChild step t.children c)

@[simp] theorem traits_gain (step : Nat) (t c : Tree S C M) : (t.gain step c).traits = t.traits := rfl

@[simp] theorem children_gain (step : Nat) (t c : Tree S C M) :
    (t.gain step c).children = insertChild step t.children c := rfl

theorem NamesDistinct.gain {t c : Tree S C M} (ht : t.NamesDistinct) (hc : c.NamesDistinct)
    (step : Nat) : (t.gain step c).NamesDistinct :=
  namesDistinct_iff.mpr (insertChild_spec step (namesDistinct_iff.mp ht) hc).1

/-- A node with a child and without a command. -/
def stem (traits : Traits S C M) (c : Tree S C M) : Tree S C M :=
  node [] { traits with command := none } [c]

theorem namesDistinct_one {id : NodeId} {traits : Traits S C M} {c : Tree S C M}
    (hc : c.NamesDistinct) : (node id traits [c]).NamesDistinct :=
  namesDistinct_iff.mpr ⟨List.nodup_singleton _, by simpa using hc⟩

/-- Merging a node with one child comes, for the children, to adding the child. -/
theorem shape_absorb_one (step : Nat) (t c : Tree S C M) {id : NodeId} {traits : Traits S C M}
    (h : traits.command.or t.command = t.command) :
    (absorb step t (node id traits [c])).shape = (t.gain step c).shape := by
  refine shape_eq_shape_iff.mpr ⟨?_, ?_⟩
  · have hcommand : (node id traits [c]).command.or t.command = t.traits.command := h
    rw [traits_absorb, hcommand, traits_gain]
  · rw [children_absorb, children_node, children_gain, insertChild_eq_graft]
    change (graft step t.children c (c.copy step)).map shape = _
    unfold graft
    split
    · rfl
    · rw [List.map_append, List.map_append, List.map_singleton, shape_copy, List.map_singleton]

theorem shape_gain (step : Nat) (t c : Tree S C M) :
    (t.gain step c).shape = (absorb step t (stem t.traits c)).shape :=
  (shape_absorb_one step t c (Option.none_or ..)).symm

/-- Adding a child respects shapes, at whatever steps it is done. -/
theorem shape_gain_congr {t t' c c' : Tree S C M} (ht : t.NamesDistinct) (hc : c.NamesDistinct)
    (htt : t.shape = t'.shape) (hcc : c.shape = c'.shape) (step step' : Nat) :
    (t.gain step c).shape = (t'.gain step' c').shape := by
  have hstem : (stem t.traits c).shape = (stem t'.traits c').shape :=
    shape_eq_shape_iff.mpr ⟨by simp [stem, (shape_eq_shape_iff.mp htt).1], by simp [stem, hcc]⟩
  rw [shape_gain, shape_gain]
  exact shape_absorb_congr ht (namesDistinct_one hc) htt hstem step step'

/-- Two children of one name, added one after another, are there as one of them with the other merged
into it. -/
theorem shape_gain_gain {t a b : Tree S C M} (ht : t.NamesDistinct) (ha : a.NamesDistinct)
    (hb : b.NamesDistinct) (hname : a.name = b.name) (s₁ s₂ s₃ s₄ : Nat) :
    ((t.gain s₁ a).gain s₂ b).shape = (t.gain s₄ (absorb s₃ a b)).shape := by
  have hsa : (stem t.traits a).NamesDistinct := namesDistinct_one ha
  have hsb : (stem t.traits b).NamesDistinct := namesDistinct_one hb
  have hmerged : absorb s₃ (stem t.traits a) (stem t.traits b) = stem t.traits (absorb s₃ a b) := by
    simp [stem, absorb, absorbAll, anyNamed, hname]
  calc ((t.gain s₁ a).gain s₂ b).shape
      = (absorb s₂ (t.gain s₁ a) (stem t.traits b)).shape := shape_gain ..
    _ = (absorb s₂ (absorb s₁ t (stem t.traits a)) (stem t.traits b)).shape :=
        shape_absorb_congr (ht.gain ha s₁) hsb (shape_gain ..) rfl s₂ s₂
    _ = (absorb s₄ t (absorb s₃ (stem t.traits a) (stem t.traits b))).shape :=
        shape_absorb_absorb ht hsa hsb s₁ s₂ s₃ s₄
    _ = (t.gain s₄ (absorb s₃ a b)).shape := by rw [hmerged, shape_gain]

/-- Nodes of the same traits with one child each, added one after another, are there as one node with
all of the children. -/
theorem shape_foldl_gain {traits : Traits S C M} {ts : List (Tree S C M)} {r r' a : Tree S C M}
    (hts : ∀ t ∈ ts, t.NamesDistinct) (hr : r.NamesDistinct) (ha : a.NamesDistinct)
    (htraits : a.traits = traits) (hr' : (r.gain 0 a).shape = r'.shape) :
    (ts.foldl (fun r t => r.gain 0 (node [] traits [t])) r').shape =
      (r.gain 0 (ts.foldl (gain 0) a)).shape := by
  induction ts generalizing r' a with
  | nil => exact hr'.symm
  | cons t ts ih =>
    obtain ⟨ht, hts⟩ := List.forall_mem_cons.mp hts
    have hone : (node [] traits [t]).NamesDistinct := namesDistinct_one ht
    have hmerged : (absorb 0 a (node [] traits [t])).shape = (a.gain 0 t).shape := by
      refine shape_absorb_one 0 a t ?_
      rw [command, htraits, Option.or_self]
    rw [List.foldl_cons, List.foldl_cons]
    refine ih hts (ha.gain ht 0) htraits ?_
    calc (r.gain 0 (a.gain 0 t)).shape
        = (r.gain 0 (absorb 0 a (node [] traits [t]))).shape :=
          shape_gain_congr hr (ha.gain ht 0) rfl hmerged.symm 0 0
      _ = ((r.gain 0 a).gain 0 (node [] traits [t])).shape := by
          refine (shape_gain_gain hr ha hone ?_ 0 0 0 0).symm
          rw [name, name, tag, tag, htraits, traits_node]
      _ = (r'.gain 0 (node [] traits [t])).shape :=
          shape_gain_congr (hr.gain ha 0) hone hr' rfl 0 0

end Tree

end CommandTree
