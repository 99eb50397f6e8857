import CommandTree.Proofs.Identity

/-!
Merging a tree into another of the same name. The outcome is determined path by path: a path leads
where it led in either tree, the nodes of the old tree stay and only take over commands, and what
only the newcomer had is copied. Main statement: adding a child whose name is taken makes the union of
the two trees in the place of the old one, and leaves the newcomer and all siblings as they are.
-/

namespace CommandTree

namespace Tree

variable {S C M : Type}

/-- A child after several trees were merged into its siblings. -/
def meet (step : Nat) (ds : List (Tree S C M)) (e : Tree S C M) : Tree S C M :=
  match ds.find? fun d => d.name = e.name with
  | some d => absorb step e d
  | none => e

@[simp] theorem name_meet (step : Nat) (ds : List (Tree S C M)) (e : Tree S C M) :
    (meet step ds e).name = e.name := by
  unfold meet; split <;> simp

theorem meet_eq_self {step : Nat} {ds : List (Tree S C M)} {e : Tree S C M}
    (h : ∀ d ∈ ds, d.name ≠ e.name) : meet step ds e = e := by
  have hfind : ds.find? (fun d => d.name = e.name) = none :=
    List.find?_eq_none.mpr fun d hd hname => h d hd (of_decide_eq_true hname)
  rw [meet, hfind]

theorem meet_cons_of_ne {step : Nat} {ds : List (Tree S C M)} {d e : Tree S C M}
    (h : e.name ≠ d.name) : meet step (d :: ds) e = meet step ds e := by
  simp [meet, Ne.symm h]

/-- Merging into a sibling makes no new names. -/
theorem anyNamed_graft {step : Nat} {cs : List (Tree S C M)} {d : Tree S C M}
    (h : anyNamed d.name cs = true) (new : Tree S C M) (n : Text) :
    anyNamed n (graft step cs d new) = anyNamed n cs := by
  rw [graft, if_pos h, anyNamed, List.any_map]
  refine congrArg cs.any (funext fun e => ?_)
  by_cases he : e.name = d.name <;> simp [he]

/-- After the first tree is merged into its sibling, that one meets none of the others. -/
theorem map_meet_graft {step : Nat} {cs ds : List (Tree S C M)} {d : Tree S C M}
    (h : anyNamed d.name cs = true) (hother : ∀ d' ∈ ds, d'.name ≠ d.name) (new : Tree S C M) :
    (graft step cs d new).map (meet step ds) = cs.map (meet step (d :: ds)) := by
  rw [graft, if_pos h, List.map_map]
  refine List.map_congr_left fun e _ => ?_
  by_cases he : e.name = d.name
  · have hfirst : meet step (d :: ds) e = absorb step e d := by simp [meet, he]
    rw [Function.comp_apply, if_pos he, hfirst]
    exact meet_eq_self (by simpa [he] using hother)
  · rw [Function.comp_apply, if_neg he, meet_cons_of_ne he]

/-- Merging several trees: the siblings of their names take them in, and copies of the others follow
in their order. -/
theorem foldl_graft_eq (step : Nat) (cs : List (Tree S C M)) {ds : List (Tree S C M)}
    (hds : (ds.map name).Nodup) :
    ds.foldl (fun cs d => graft step cs d (d.copy step)) cs =
      cs.map (meet step ds) ++ (ds.filter fun d => !anyNamed d.name cs).map (copy step) := by
  induction ds generalizing cs with
  | nil =>
    have hmeet : meet step ([] : List (Tree S C M)) = fun e => e := rfl
    simp [hmeet]
  | cons d ds ih =>
    obtain ⟨hd, hds⟩ := List.nodup_cons.mp hds
    have hother : ∀ d' ∈ ds, d'.name ≠ d.name := fun d' hd' hname =>
      hd (hname ▸ List.mem_map_of_mem hd')
    rw [List.foldl_cons, ih _ hds]
    cases hn : anyNamed d.name cs with
    | true =>
      simp only [map_meet_graft hn hother, anyNamed_graft hn, List.filter_cons, hn, Bool.not_true]
      rfl
    | false =>
      have hgraft : graft step cs d (d.copy step) = cs ++ [d.copy step] := by simp [graft, hn]
      have hmap : cs.map (meet step ds) = cs.map (meet step (d :: ds)) := by
        refine List.map_congr_left fun e he => (meet_cons_of_ne fun hname => ?_).symm
        exact absurd (anyNamed_iff.mpr ⟨e, he, hname⟩) (by simp [hn])
      have hfilter : (ds.filter fun d' => !anyNamed d'.name (cs ++ [d.copy step])) =
          ds.filter fun d' => !anyNamed d'.name cs := by
        refine List.filter_congr fun d' hd' => ?_
        have hne : d.name ≠ d'.name := Ne.symm (hother d' hd')
        simp [anyNamed, hne]
      have hcopy : meet step ds (d.copy step) = d.copy step :=
        meet_eq_self (by simpa using hother)
      rw [hgraft, hfilter, List.map_append, hmap]
      simp [hn, hcopy]

/-- What stands at one place of two trees after the second was merged into the first. -/
def unite (step : Nat) : Option (Tree S C M) → Option (Tree S C M) → Option (Tree S C M)
  | some e, some i => some (absorb step e i)
  | some e, none => some e
  | none, i => i.map (copy step)

theorem find?_map_of_name {f : Tree S C M → Tree S C M} (hf : ∀ t, (f t).name = t.name) (n : Text)
    (cs : List (Tree S C M)) :
    (cs.map f).find? (fun c => c.name = n) = (cs.find? fun c => c.name = n).map f := by
  simp [List.find?_map, hf]

theorem child?_copy (step : Nat) (t : Tree S C M) (n : Text) :
    (t.copy step).child? n = (t.child? n).map (copy step) := by
  cases t
  rw [child?, copy, children_node, copyAll_eq_map, find?_map_of_name (name_copy step)]
  rfl

theorem child?_absorb (step : Nat) (e : Tree S C M) {i : Tree S C M}
    (hi : (i.children.map name).Nodup) (n : Text) :
    (absorb step e i).child? n = unite step (e.child? n) (i.child? n) := by
  rw [child?, children_absorb, foldl_graft_eq step _ hi, List.find?_append,
    find?_map_of_name (name_meet step _), find?_map_of_name (name_copy step)]
  cases he : e.child? n with
  | some e' =>
    have hname : e'.name = n := by simpa using List.find?_some he
    have hfind : e.children.find? (fun c => c.name = n) = some e' := he
    rw [hfind]
    subst hname
    rw [Option.map_some, Option.some_or, meet]
    change some (match i.child? e'.name with | some d => absorb step e' d | none => e') = _
    cases i.child? e'.name <;> rfl
  | none =>
    have hfind : e.children.find? (fun c => c.name = n) = none := he
    have hfree : ∀ d : Tree S C M, d.name = n → anyNamed d.name e.children = false := by
      rintro d rfl
      simpa [anyNamed] using child?_eq_none_iff.mp he
    have hfilter : (i.children.filter fun d => !anyNamed d.name e.children).find?
        (fun c => c.name = n) = i.child? n := by
      rw [List.find?_filter, child?]
      refine congrArg (fun p => List.find? p i.children) (funext fun d => ?_)
      by_cases hd : d.name = n
      · simp [hfree d hd]
      · simp [hd]
    rw [hfind, hfilter]
    rfl

theorem descend?_copy (step : Nat) (t : Tree S C M) (path : List Text) :
    (t.copy step).descend? path = (t.descend? path).map (copy step) := by
  induction path generalizing t with
  | nil => rfl
  | cons n rest ih =>
    rw [descend?, descend?, child?_copy]
    cases t.child? n with
    | none => rfl
    | some c => exact ih c

/-- Merging is done place by place. -/
theorem descend?_absorb (step : Nat) (e : Tree S C M) {i : Tree S C M} (hi : i.NamesDistinct)
    (path : List Text) :
    (absorb step e i).descend? path = unite step (e.descend? path) (i.descend? path) := by
  induction path generalizing e i with
  | nil => rfl
  | cons n rest ih =>
    rw [descend?, child?_absorb step e hi.nodup, descend?, descend?]
    cases he : e.child? n with
    | none =>
      cases i.child? n with
      | none => rfl
      | some i' => exact descend?_copy step i' rest
    | some e' =>
      cases hchild : i.child? n with
      | none => cases h : e'.descend? rest <;> simp [unite, h]
      | some i' =>
        exact ih e' (hi.child ((child?_eq_some_iff hi.nodup).mp hchild).1)

/-- The names of the children at a place, none where a path leads nowhere. -/
def namesAt (t : Tree S C M) (path : List Text) : List Text :=
  ((t.descend? path).map fun u => u.children.map name).getD []

/-- A tree is the union of two: paths lead where they led in one of them; the command of the newcomer
counts where there is one, and everything else is as in the old tree where the path led there;
children stand in their old order, and before the additional ones of the newcomer. The nodes of the
old tree are still the same nodes. -/
structure Union (old newcomer t : Tree S C M) : Prop where
  leads : ∀ path, (t.descend? path).isSome ↔
    (old.descend? path).isSome ∨ (newcomer.descend? path).isSome
  command : ∀ path u, t.descend? path = some u →
    u.command = ((newcomer.descend? path).bind command).or ((old.descend? path).bind command)
  traits : ∀ path u before, t.descend? path = some u →
    (old.descend? path).or (newcomer.descend? path) = some before →
      u.traits = { before.traits with command := u.command }
  children : ∀ path u, t.descend? path = some u →
    u.children.map name =
      old.namesAt path ++ (newcomer.namesAt path).filter fun n => n ∉ old.namesAt path
  same : ∀ path before, old.descend? path = some before →
    ∃ u, t.descend? path = some u ∧ u.id = before.id

theorem map_name_absorb (step : Nat) (e : Tree S C M) {i : Tree S C M}
    (hi : (i.children.map name).Nodup) :
    (absorb step e i).children.map name =
      e.children.map name ++ (i.children.map name).filter fun n => n ∉ e.children.map name := by
  have hfilter : (i.children.filter fun d => !anyNamed d.name e.children).map name =
      (i.children.map name).filter fun n => n ∉ e.children.map name := by
    rw [List.filter_map]
    refine congrArg (List.map name) (List.filter_congr fun d _ => ?_)
    by_cases hd : ∃ c ∈ e.children, c.name = d.name
    · simp [anyNamed_iff.mpr hd, hd]
    · have hnone : anyNamed d.name e.children = false := by
        rw [← Bool.not_eq_true, anyNamed_iff]
        exact hd
      simpa [hnone] using hd
  rw [children_absorb, foldl_graft_eq step _ hi, List.map_append, ← hfilter]
  simp [Function.comp_def]

theorem map_name_copy (step : Nat) (t : Tree S C M) :
    (t.copy step).children.map name = t.children.map name := by
  cases t
  simp [copy, copyAll_eq_map, Function.comp_def]

theorem namesDistinct_of_descend {t u : Tree S C M} (h : t.NamesDistinct) {path : List Text}
    (hu : t.descend? path = some u) : u.NamesDistinct := by
  induction path generalizing t with
  | nil =>
    obtain rfl := Option.some.inj hu
    exact h
  | cons n rest ih =>
    rw [descend?] at hu
    cases hc : t.child? n with
    | none => simp [hc] at hu
    | some c =>
      rw [hc] at hu
      exact ih (h.child ((child?_eq_some_iff h.nodup).mp hc).1) hu

/-- Merging makes the union. -/
theorem union_absorb (step : Nat) (e : Tree S C M) {i : Tree S C M} (hi : i.NamesDistinct) :
    e.Union i (absorb step e i) := by
  refine ⟨fun path => ?_, fun path u hu => ?_, fun path u before hu hbefore => ?_,
    fun path u hu => ?_, fun path before hbefore => ?_⟩ <;>
    simp only [descend?_absorb step e hi] at *
  · cases e.descend? path <;> cases i.descend? path <;> simp [unite]
  · cases he : e.descend? path <;> cases hd : i.descend? path <;>
      simp only [he, hd, unite, Option.map_some, Option.map_none, Option.some.injEq,
        reduceCtorEq] at hu <;> subst hu <;> simp [command]
  · cases he : e.descend? path <;> cases hd : i.descend? path <;>
      simp only [he, hd, unite, Option.map_some, Option.map_none, Option.some.injEq,
        Option.some_or, Option.none_or, reduceCtorEq] at hu hbefore <;> subst hu hbefore <;>
      simp [command]
  · cases he : e.descend? path <;> cases hd : i.descend? path <;>
      simp only [he, hd, unite, Option.map_some, Option.map_none, Option.some.injEq,
        reduceCtorEq] at hu <;> subst hu <;> simp only [namesAt, he, hd]
    · simp [map_name_copy]
    · simp
    · simpa using map_name_absorb step _ (namesDistinct_of_descend hi hd).nodup
  · rw [hbefore]
    cases i.descend? path <;> simp [unite]

end Tree

namespace Workbench

variable {S C M : Type} {w : Workbench S C M}

theorem among_withChild {t c : Tree S C M} (h : Tree.Among w.trees t) :
    Tree.Among (w.withChild t c).trees (w.grown t c) := by
  have hplaced : Tree.Among (w.replace t.id (w.grown t c)).trees (w.grown t c) := by
    rw [trees_replace]
    exact h.replaceAtAll _
  unfold withChild
  cases Tree.anyNamed c.name t.children with
  | true =>
    obtain ⟨u, hu, hhas⟩ := hplaced
    exact ⟨u, (trees_keep _ c).mem_iff.mpr (List.mem_cons_of_mem c hu), hhas⟩
  | false => exact hplaced

/-- A tree that was merged away is still on the workbench. -/
theorem mem_trees_withChild {t c : Tree S C M} (hn : Tree.anyNamed c.name t.children = true) :
    c ∈ (w.withChild t c).trees := by
  simp only [withChild, hn, if_true]
  exact (trees_keep _ c).mem_iff.mpr List.mem_cons_self

/-- Adding a child whose name is taken puts the union of the two trees in the place of the child that
has the name, among the same siblings. All nodes of the newcomer can still be reached, as they were,
and none of them is in the union. -/
theorem addChild_union (w : Workbench S C M) (t old newcomer : Tree S C M)
    (hw : Tree.Fresh w.step (Tree.idsOf (newcomer :: w.trees))) (ht : Tree.Among w.trees t)
    (hold : old ∈ t.children) (hname : old.name = newcomer.name)
    (hroot : newcomer.isRoot = false) (htn : t.NamesDistinct) (hnn : newcomer.NamesDistinct) :
    ∃ w' before after merged, w.addChild t.id newcomer = (.ok (), w') ∧
      t.children = before ++ old :: after ∧
      w'.resolve t.id = .node t.id t.traits (before ++ merged :: after) ∧
      old.Union newcomer merged ∧
      (∀ u, newcomer.Has u → w'.resolve u.id = u) ∧
      ∀ u v, newcomer.Has u → merged.Has v → u.id ≠ v.id := by
  have hfresh := fresh_withChild hw ht htn hnn
  have hids : (Tree.idsOf w.trees).Nodup := (List.nodup_append.mp hw.nodup).2.1
  have hnamed : Tree.anyNamed newcomer.name t.children = true :=
    Tree.anyNamed_iff.mpr ⟨old, hold, hname⟩
  rcases Tree.graft_cases w.step newcomer newcomer htn.nodup with
    ⟨-, before, e, after, hsplit, he, hgraft⟩ | ⟨-, hnone, -⟩
  · obtain rfl : e = old := by
      have hfind := (Tree.child?_eq_some_iff htn.nodup).mpr ⟨hold, hname⟩
      have he' := (Tree.child?_eq_some_iff htn.nodup).mpr ⟨by simp [hsplit], he⟩
      exact Option.some.inj (he'.symm.trans hfind)
    refine ⟨w.withChild t newcomer, before, after, Tree.absorb w.step e newcomer,
      addChild_of_among hids ht hroot, hsplit, ?_, Tree.union_absorb w.step e hnn, ?_, ?_⟩
    · have hgrown := resolve_of_among hfresh.nodup (among_withChild (c := newcomer) ht)
      rwa [grown, Tree.id_node, Tree.insertChild_eq_graft, hgraft] at hgrown
    · intro u hu
      exact resolve_of_among hfresh.nodup ⟨newcomer, mem_trees_withChild hnamed, hu⟩
    · intro u v hu hv heq
      have hmem : u.id ∈ newcomer.ids := Tree.mem_ids_iff.mpr ⟨u, hu, rfl⟩
      have hmerged : u.id ∈ (Tree.absorb w.step e newcomer).ids :=
        Tree.mem_ids_iff.mpr ⟨v, hv, heq.symm⟩
      -- A node of the union is one of the old tree, or a copy with an identity of its own.
      obtain ⟨added, -, hnews⟩ := (Tree.absorb_spec w.step hnn e (htn.child hold)).2
      rcases List.mem_append.mp (hnews.subset hmerged) with hin | hin
      · obtain ⟨d, hd, hdu⟩ := Tree.mem_ids_iff.mp hin
        obtain ⟨x, hx, hxt⟩ := ht
        have hwmem : u.id ∈ Tree.idsOf w.trees :=
          hdu ▸ Tree.Among.id_mem ⟨x, hx, (hxt.child hold).trans hd⟩
        exact (List.nodup_append.mp hw.nodup).2.2 _ hmem _ hwmem rfl
      · obtain ⟨j, -, hj⟩ := List.mem_map.mp hin
        exact hw.not_mem j (hj ▸ List.mem_append_left _ hmem)
  · exact absurd hname (hnone old hold)

/-- A tree of gifts without commands. -/
def gifts : Tree Unit Unit Unit :=
  .node [0] (.ofKind (.literal (text "give")))
    [.node [1] (.ofKind (.literal (text "gold"))) [.node [2] (.ofKind (.literal (text "coin"))) []]]

/-- More gifts, one of which is already there, with commands. -/
def moreGifts : Tree Unit Unit Unit :=
  .node [3] (.ofKind (.literal (text "give")))
    [.node [4] (.ofKind (.literal (text "wine"))) [],
      .node [5] ⟨.literal (text "gold"), some (), none, none, none, none, false⟩
        [.node [6] (.ofKind (.literal (text "ring"))) []]]

/-- A workbench with some gifts in its tree. -/
def shop : Workbench Unit Unit Unit :=
  ⟨⟨true, .standard⟩, .node [] (.ofKind .root) [gifts], [], [], [], 7⟩

/-- The gifts are put together, and the new ones are still there by themselves. -/
theorem addChild_union_shop :
    ∃ w' before after merged, shop.addChild [] moreGifts = (.ok (), w') ∧
      w'.resolve [] = .node [] (.ofKind .root) (before ++ merged :: after) ∧
      gifts.Union moreGifts merged ∧ merged.namesAt [] = [text "gold", text "wine"] ∧
      merged.namesAt [text "gold"] = [text "coin", text "ring"] ∧
      w'.resolve [5] = .node [5] ⟨.literal (text "gold"), some (), none, none, none, none, false⟩
        [.node [6] (.ofKind (.literal (text "ring"))) []] := by
  obtain ⟨w', before, after, merged, hadd, -, hplace, hunion, hstill, -⟩ :=
    shop.addChild_union shop.root gifts moreGifts ⟨by decide, by decide⟩
      ⟨shop.root, List.mem_cons_self, .top⟩ List.mem_cons_self (by rfl) (by rfl)
      (by decide +kernel) (by decide +kernel)
  have hnames : ∀ path u, merged.descend? path = some u → merged.namesAt path =
      gifts.namesAt path ++ (moreGifts.namesAt path).filter fun n => n ∉ gifts.namesAt path := by
    intro path u hu
    rw [← hunion.children path u hu]
    simp [Tree.namesAt, hu]
  have hgold : (merged.descend? [text "gold"]).isSome :=
    (hunion.leads _).mpr (.inl (by decide +kernel))
  obtain ⟨u, hu⟩ := Option.isSome_iff_exists.mp hgold
  refine ⟨w', before, after, merged, hadd, hplace, hunion, ?_, ?_, ?_⟩
  · rw [hnames [] merged rfl]
    decide +kernel
  · rw [hnames _ u hu]
    decide +kernel
  · exact hstill (.node [5] _ _) (.child .top (by simp [moreGifts]))

end Workbench

end CommandTree
