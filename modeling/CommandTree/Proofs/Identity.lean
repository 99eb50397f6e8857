import CommandTree.Proofs.Siblings
import CommandTree.Workbench

/-!
Identities of nodes. Copies made at a new step are new nodes, and so is what merging adds to a tree;
putting a tree in the place of a node changes no identity outside. Where no two nodes have the same
identity, the identity finds the node.
-/

namespace CommandTree

open scoped List

namespace Tree

variable {S C M : Type}

/-- The identities of all nodes of a tree. -/
def ids (t : Tree S C M) : List NodeId := t.subtrees.map id

/-- The identities of all nodes of several trees. -/
def idsOf (ts : List (Tree S C M)) : List NodeId := ts.flatMap ids

@[simp] theorem ids_node (i : NodeId) (traits : Traits S C M) (cs : List (Tree S C M)) :
    (node i traits cs).ids = i :: idsOf cs := by
  simp only [ids, idsOf, subtrees_node, List.map_cons, id_node, List.map_flatMap]
  rfl

@[simp] theorem idsOf_nil : idsOf ([] : List (Tree S C M)) = [] := rfl

@[simp] theorem idsOf_cons (t : Tree S C M) (ts : List (Tree S C M)) :
    idsOf (t :: ts) = t.ids ++ idsOf ts := rfl

@[simp] theorem idsOf_append (ts us : List (Tree S C M)) :
    idsOf (ts ++ us) = idsOf ts ++ idsOf us := List.flatMap_append

theorem idsOf_subperm {ts us : List (Tree S C M)} (h : ts <+~ us) : idsOf ts <+~ idsOf us := by
  obtain ⟨l, hperm, hsub⟩ := h
  exact ⟨_, hperm.flatMap_right ids, hsub.flatMap ids⟩

theorem ids_eq (t : Tree S C M) : t.ids = t.id :: idsOf t.children := by
  cases t; exact ids_node _ _ _

theorem mem_ids_iff {t : Tree S C M} {i : NodeId} : i ∈ t.ids ↔ ∃ u, t.Has u ∧ u.id = i := by
  simp [ids, mem_subtrees_iff]

theorem ids_sublist_idsOf {t : Tree S C M} {ts : List (Tree S C M)} (h : t ∈ ts) :
    t.ids <+ idsOf ts := by
  simpa [idsOf] using (List.singleton_sublist.mpr h).flatMap ids

theorem Has.ids_sublist {t u : Tree S C M} (h : t.Has u) : u.ids <+ t.ids := by
  induction t with
  | node i traits cs ih =>
    rcases has_iff.mp h with rfl | ⟨c, hc, hcu⟩
    · exact List.Sublist.refl _
    · rw [ids_node]
      exact ((ih c hc hcu).trans (ids_sublist_idsOf hc)).cons i

theorem mem_idsOf_iff {ts : List (Tree S C M)} {i : NodeId} :
    i ∈ idsOf ts ↔ ∃ t ∈ ts, i ∈ t.ids := by
  simp [idsOf]

@[simp] theorem ids_copy (step : Nat) (t : Tree S C M) :
    (t.copy step).ids = t.ids.map (step :: ·) := by
  induction t with
  | node i traits cs ih =>
    rw [copy, ids_node, ids_node, List.map_cons, copyAll_eq_map, idsOf, idsOf, List.flatMap_map,
      List.map_flatMap]
    exact congrArg _ (List.flatMap_congr ih)

/-! Merging -/

/-- Merges a tree into the sibling that has its name, or else appends a new one for it. -/
def graft (step : Nat) (cs : List (Tree S C M)) (c new : Tree S C M) : List (Tree S C M) :=
  if anyNamed c.name cs then cs.map fun d => if d.name = c.name then absorb step d c else d
  else cs ++ [new]

theorem insertChild_eq_graft (step : Nat) (cs : List (Tree S C M)) (c : Tree S C M) :
    insertChild step cs c = graft step cs c c := rfl

theorem absorbAll_eq_foldl (step : Nat) (cs cs' : List (Tree S C M)) :
    absorbAll step cs cs' = cs'.foldl (fun ds c => graft step ds c (c.copy step)) cs := by
  induction cs' generalizing cs with
  | nil => rfl
  | cons c rest ih => rw [absorbAll, ih]; rfl

@[simp] theorem id_absorb (step : Nat) (e i : Tree S C M) : (absorb step e i).id = e.id := by
  cases e; cases i; rfl

@[simp] theorem traits_absorb (step : Nat) (e i : Tree S C M) :
    (absorb step e i).traits = { e.traits with command := i.command.or e.command } := by
  cases e; cases i; rfl

@[simp] theorem name_absorb (step : Nat) (e i : Tree S C M) :
    (absorb step e i).name = e.name := by
  simp [name, tag]

theorem children_absorb (step : Nat) (e i : Tree S C M) :
    (absorb step e i).children =
      i.children.foldl (fun ds c => graft step ds c (c.copy step)) e.children := by
  cases e; cases i; exact absorbAll_eq_foldl step _ _

theorem anyNamed_iff {name : Text} {cs : List (Tree S C M)} :
    anyNamed name cs = true ↔ ∃ c ∈ cs, c.name = name := by
  simp [anyNamed]

/-- Where a name is taken, it is taken by one of the siblings; a change to those of that name changes
just this one. -/
theorem split_of_anyNamed {name : Text} {cs : List (Tree S C M)} (h : anyNamed name cs = true)
    (hcs : (cs.map Tree.name).Nodup) :
    ∃ before e after, cs = before ++ e :: after ∧ e.name = name ∧
      ∀ f : Tree S C M → Tree S C M,
        (cs.map fun d => if d.name = name then f d else d) = before ++ f e :: after := by
  obtain ⟨e, he, hname⟩ := anyNamed_iff.mp h
  obtain ⟨before, after, rfl⟩ := List.append_of_mem he
  subst hname
  have hother : ∀ d ∈ before ++ after, d.name ≠ e.name := by
    rw [List.map_append, List.map_cons, List.nodup_middle] at hcs
    intro d hd hname
    exact (List.nodup_cons.mp hcs).1 (by rw [← List.map_append, ← hname]; exact List.mem_map_of_mem hd)
  refine ⟨before, e, after, rfl, rfl, fun f => ?_⟩
  have hkeep : ∀ ds ⊆ before ++ after, (ds.map fun d => if d.name = e.name then f d else d) = ds :=
    fun ds hds => (List.map_congr_left fun d hd => if_neg (hother d (hds hd))).trans (List.map_id ds)
  simp [hkeep before (by simp), hkeep after (by simp)]

theorem graft_cases (step : Nat) {cs : List (Tree S C M)} (c new : Tree S C M)
    (hcs : (cs.map name).Nodup) :
    (anyNamed c.name cs = true ∧ ∃ before e after, cs = before ++ e :: after ∧ e.name = c.name ∧
      graft step cs c new = before ++ absorb step e c :: after) ∨
    anyNamed c.name cs = false ∧ (∀ d ∈ cs, d.name ≠ c.name) ∧ graft step cs c new = cs ++ [new] := by
  cases h : anyNamed c.name cs with
  | true =>
    obtain ⟨before, e, after, hsplit, hname, hmap⟩ := split_of_anyNamed h hcs
    exact .inl ⟨rfl, before, e, after, hsplit, hname, by rw [graft, if_pos h, hmap]⟩
  | false =>
    refine .inr ⟨rfl, fun d hd hname => ?_, by simp [graft, h]⟩
    exact absurd (anyNamed_iff.mpr ⟨d, hd, hname⟩) (by simp [h])

/-- Identities after some change: at most the old ones, and those of some nodes of a source, each at
most once, marked with a step. -/
def Adds (step : Nat) (source olds news : List NodeId) : Prop :=
  ∃ added, added <+~ source ∧ news <+~ olds ++ added.map (step :: ·)

theorem Adds.nothing {step : Nat} {source olds news : List NodeId} (h : news <+~ olds) :
    Adds step source olds news :=
  ⟨[], List.nil_subperm, by simpa using h⟩

theorem Adds.copies (step : Nat) (source olds : List NodeId) :
    Adds step source olds (olds ++ source.map (step :: ·)) :=
  ⟨source, List.Subperm.refl source, List.Subperm.refl _⟩

theorem Adds.trans {step : Nat} {source source' olds mids news : List NodeId}
    (h : Adds step source olds mids) (h' : Adds step source' mids news) :
    Adds step (source ++ source') olds news := by
  obtain ⟨added, hs, hp⟩ := h
  obtain ⟨added', hs', hp'⟩ := h'
  refine ⟨added ++ added', hs.append hs', hp'.trans ?_⟩
  rw [List.map_append, ← List.append_assoc]
  exact hp.append (List.Subperm.refl _)

theorem Adds.mono {step : Nat} {source source' olds news : List NodeId}
    (h : Adds step source olds news) (hs : source <+~ source') :
    Adds step source' olds news := by
  obtain ⟨added, hsub, hp⟩ := h
  exact ⟨added, hsub.trans hs, hp⟩

/-- What is added to a part is added to the whole. -/
theorem Adds.within {step : Nat} {source olds news : List NodeId} (before after : List NodeId)
    (h : Adds step source olds news) :
    Adds step source (before ++ olds ++ after) (before ++ news ++ after) := by
  obtain ⟨added, hs, hp⟩ := h
  refine ⟨added, hs, ?_⟩
  have hpart : before ++ news ++ after <+~ before ++ (olds ++ added.map (step :: ·)) ++ after :=
    ((List.Subperm.refl before).append hp).append (List.Subperm.refl after)
  have hmove : before ++ (olds ++ added.map (step :: ·)) ++ after ~
      before ++ olds ++ after ++ added.map (step :: ·) := by
    have hcomm : added.map (step :: ·) ++ after ~ after ++ added.map (step :: ·) :=
      List.perm_append_comm
    simpa using hcomm.append_left (before ++ olds)
  exact hpart.trans hmove.subperm

theorem nodup_of_subperm {α : Type} {as bs : List α} (h : as <+~ bs) (hbs : bs.Nodup) :
    as.Nodup := by
  obtain ⟨_, hperm, hsub⟩ := h
  exact hperm.nodup_iff.mp (hbs.sublist hsub)

/-- Identities given out before a step: no two are the same, and none is marked with that step or a
later one. -/
structure Fresh (step : Nat) (is : List NodeId) : Prop where
  nodup : is.Nodup
  older : ∀ i ∈ is, ∀ n ∈ i.head?, n < step

theorem Fresh.subperm {step : Nat} {is is' : List NodeId} (h : Fresh step is) (hs : is' <+~ is) :
    Fresh step is' where
  nodup := nodup_of_subperm hs h.nodup
  older := fun i hi => h.older i (hs.subset hi)

theorem Fresh.later {step step' : Nat} {is : List NodeId} (h : Fresh step is)
    (hstep : step ≤ step') : Fresh step' is where
  nodup := h.nodup
  older := fun i hi n hn => Nat.lt_of_lt_of_le (h.older i hi n hn) hstep

theorem Fresh.not_mem {step : Nat} {is : List NodeId} (h : Fresh step is) (i : NodeId) :
    step :: i ∉ is := fun hi => Nat.lt_irrefl step (h.older _ hi step rfl)

/-- New identities are different from all that were there. -/
theorem Fresh.adds {step : Nat} {source olds news : List NodeId} (h : Fresh step olds)
    (hs : source.Nodup) (ha : Adds step source olds news) : Fresh (step + 1) news := by
  obtain ⟨added, hadded, hnews⟩ := ha
  refine Fresh.subperm ⟨?_, ?_⟩ hnews
  · refine List.nodup_append.mpr ⟨h.nodup, ?_, ?_⟩
    · exact (nodup_of_subperm hadded hs).map fun i j hij => List.tail_eq_of_cons_eq hij
    · rintro i hi _ hj rfl
      obtain ⟨j, -, rfl⟩ := List.mem_map.mp hj
      exact h.not_mem j hi
  · intro i hi n hn
    rcases List.mem_append.mp hi with hi | hi
    · exact Nat.lt_succ_of_lt (h.older i hi n hn)
    · obtain ⟨j, -, rfl⟩ := List.mem_map.mp hi
      obtain rfl : step = n := by simpa using hn
      exact Nat.lt_succ_self step

theorem namesDistinct_bare (i : NodeId) : (bare i : Tree S C M).NamesDistinct :=
  namesDistinct_iff.mpr ⟨List.nodup_nil, fun _ hc => absurd hc List.not_mem_nil⟩

theorem NamesDistinct.copy {t : Tree S C M} (h : t.NamesDistinct) (step : Nat) :
    (t.copy step).NamesDistinct := by
  induction t with
  | node i traits cs ih =>
    obtain ⟨hcs, hdeep⟩ := namesDistinct_iff.mp h
    rw [namesDistinct_iff, Tree.copy, children_node, copyAll_eq_map]
    refine ⟨by simpa [Function.comp_def] using hcs, ?_⟩
    intro c hc
    obtain ⟨d, hd, rfl⟩ := List.mem_map.mp hc
    exact ih d hd (hdeep d hd)

theorem Siblings.append_new {cs : List (Tree S C M)} {c : Tree S C M} (hcs : Siblings cs)
    (hc : c.NamesDistinct) (hnew : ∀ d ∈ cs, d.name ≠ c.name) : Siblings (cs ++ [c]) where
  nodup := by
    rw [List.map_append, List.nodup_append]
    exact ⟨hcs.nodup, by simp, by simpa using hnew⟩
  below := by
    intro d hd
    rcases List.mem_append.mp hd with hd | hd
    · exact hcs.below d hd
    · obtain rfl := List.mem_singleton.mp hd
      exact hc

theorem Siblings.replace {before after : List (Tree S C M)} {e e' : Tree S C M}
    (h : Siblings (before ++ e :: after)) (he' : e'.NamesDistinct) (hname : e'.name = e.name) :
    Siblings (before ++ e' :: after) where
  nodup := by simpa [hname] using h.nodup
  below := by
    intro d hd
    rcases List.mem_append.mp hd with hd | hd
    · exact h.below d (List.mem_append_left _ hd)
    rcases List.mem_cons.mp hd with rfl | hd
    · exact he'
    · exact h.below d (by simp [hd])

/-- Merging a tree keeps the names of siblings distinct, and adds copies of its nodes. -/
def Absorbs (step : Nat) (c : Tree S C M) : Prop :=
  ∀ e : Tree S C M, e.NamesDistinct →
    (absorb step e c).NamesDistinct ∧ Adds step c.ids e.ids (absorb step e c).ids

theorem graft_spec {step : Nat} {cs : List (Tree S C M)} {c : Tree S C M} (hcs : Siblings cs)
    (hc : c.NamesDistinct) (habsorb : Absorbs step c) :
    Siblings (graft step cs c (c.copy step)) ∧
      Adds step c.ids (idsOf cs) (idsOf (graft step cs c (c.copy step))) := by
  rcases graft_cases step c (c.copy step) hcs.nodup with
    ⟨-, before, e, after, rfl, -, hg⟩ | ⟨-, hnone, hg⟩
  · obtain ⟨hdistinct, hadds⟩ := habsorb e (hcs.below e (by simp))
    rw [hg]
    refine ⟨hcs.replace hdistinct (name_absorb step e c), ?_⟩
    simpa using hadds.within (idsOf before) (idsOf after)
  · rw [hg]
    refine ⟨hcs.append_new (hc.copy step) (by simpa using hnone), ?_⟩
    simpa using Adds.copies step c.ids (idsOf cs)

theorem foldl_graft_spec {step : Nat} {cs ds : List (Tree S C M)} (hcs : Siblings cs)
    (hds : ∀ d ∈ ds, d.NamesDistinct) (habsorb : ∀ d ∈ ds, Absorbs step d) :
    Siblings (ds.foldl (fun ds c => graft step ds c (c.copy step)) cs) ∧
      Adds step (idsOf ds) (idsOf cs)
        (idsOf (ds.foldl (fun ds c => graft step ds c (c.copy step)) cs)) := by
  induction ds generalizing cs with
  | nil => exact ⟨hcs, .nothing (List.Subperm.refl _)⟩
  | cons d ds ih =>
    obtain ⟨hd, hds⟩ := List.forall_mem_cons.mp hds
    obtain ⟨hfirst, hrest⟩ := List.forall_mem_cons.mp habsorb
    obtain ⟨hsib, hadds⟩ := graft_spec hcs hd hfirst
    obtain ⟨hsib', hadds'⟩ := ih hsib hds hrest
    exact ⟨hsib', hadds.trans hadds'⟩

theorem absorb_spec (step : Nat) {i : Tree S C M} (hi : i.NamesDistinct) : Absorbs step i := by
  induction i with
  | node id traits cs ih =>
    intro e he
    obtain ⟨hsib, hadds⟩ := foldl_graft_spec (namesDistinct_iff.mp he) (fun c hc => hi.child hc)
      fun c hc => ih c hc (hi.child hc)
    rw [namesDistinct_iff, children_absorb]
    refine ⟨hsib, ?_⟩
    rw [ids_node, ids_eq e, ids_eq (absorb step e _), id_absorb, children_absorb]
    simpa using (hadds.within [e.id] []).mono (List.sublist_cons_self id _).subperm

/-- Adding a tree to siblings keeps their names distinct. Where it is merged copies are added, and else
the tree itself. -/
theorem insertChild_spec (step : Nat) {cs : List (Tree S C M)} {c : Tree S C M} (hcs : Siblings cs)
    (hc : c.NamesDistinct) :
    Siblings (insertChild step cs c) ∧
      if anyNamed c.name cs then Adds step c.ids (idsOf cs) (idsOf (insertChild step cs c))
      else idsOf (insertChild step cs c) = idsOf cs ++ c.ids := by
  rw [insertChild_eq_graft]
  rcases graft_cases step c c hcs.nodup with
    ⟨hnamed, before, e, after, rfl, -, hg⟩ | ⟨hnamed, hnone, hg⟩
  · obtain ⟨hdistinct, hadds⟩ := absorb_spec step hc e (hcs.below e (by simp))
    rw [hg, if_pos hnamed]
    refine ⟨hcs.replace hdistinct (name_absorb step e c), ?_⟩
    simpa using hadds.within (idsOf before) (idsOf after)
  · rw [hg, hnamed]
    exact ⟨hcs.append_new hc hnone, by simp⟩

/-- Adding a tree beside others gives out new identities to copies only; a tree that was merged away is
kept. -/
theorem fresh_insertChild {step : Nat} {cs absorbed rest : List (Tree S C M)} {c : Tree S C M}
    (hcs : Siblings cs) (hc : c.NamesDistinct)
    (hfresh : Fresh step (idsOf (c :: (cs ++ absorbed ++ rest)))) :
    Fresh (step + 1) (idsOf (insertChild step cs c ++
      (if anyNamed c.name cs then absorbed ++ [c] else absorbed) ++ rest)) := by
  have hids : c.ids.Nodup := (List.nodup_append.mp hfresh.nodup).1
  refine hfresh.adds hids ?_
  obtain ⟨-, hadds⟩ := insertChild_spec step hcs hc
  cases hn : anyNamed c.name cs with
  | true =>
    rw [hn, if_pos rfl] at hadds
    obtain ⟨added, hsub, hnews⟩ := hadds.within [] (idsOf (absorbed ++ c :: rest))
    refine ⟨added, hsub, ?_⟩
    have hperm : cs ++ (absorbed ++ c :: rest) ~ c :: (cs ++ absorbed ++ rest) := by
      rw [← List.append_assoc]
      exact List.perm_middle
    have holds : [] ++ idsOf cs ++ idsOf (absorbed ++ c :: rest) ~
        idsOf (c :: (cs ++ absorbed ++ rest)) := by
      simpa [idsOf] using hperm.flatMap_right ids
    refine List.Subperm.trans ?_ (hnews.trans (holds.append_right _).subperm)
    simp [List.Subperm.refl]
  | false =>
    rw [hn, if_neg (by simp)] at hadds
    refine .nothing (List.Perm.subperm ?_)
    simpa [hadds] using List.perm_append_comm_assoc (idsOf cs) c.ids _

/-! Places -/

theorem replaceAtAll_eq_map (i : NodeId) (cs : List (Tree S C M)) (new : Tree S C M) :
    replaceAtAll i cs new = cs.map fun c => replaceAt i c new := by
  induction cs with
  | nil => rfl
  | cons c cs ih => simp [replaceAtAll, ih]

theorem replaceAt_of_not_mem {i : NodeId} {t new : Tree S C M} (h : i ∉ t.ids) :
    replaceAt i t new = t := by
  induction t with
  | node j traits cs ih =>
    rw [ids_node, List.mem_cons, not_or] at h
    have hcs : ∀ c ∈ cs, replaceAt i c new = c := fun c hc =>
      ih c hc fun hi => h.2 (mem_idsOf_iff.mpr ⟨c, hc, hi⟩)
    rw [replaceAt, if_neg (Ne.symm h.1), replaceAtAll_eq_map, List.map_congr_left hcs]
    simp

theorem replaceAtAll_of_not_mem {i : NodeId} {ts : List (Tree S C M)} {new : Tree S C M}
    (h : i ∉ idsOf ts) : replaceAtAll i ts new = ts := by
  rw [replaceAtAll_eq_map]
  exact (List.map_congr_left fun t ht =>
    replaceAt_of_not_mem fun hi => h (mem_idsOf_iff.mpr ⟨t, ht, hi⟩)).trans (List.map_id ts)

/-- A node is somewhere in one of several trees. -/
def Among (ts : List (Tree S C M)) (t : Tree S C M) : Prop := ∃ u ∈ ts, u.Has t

theorem Among.id_mem {ts : List (Tree S C M)} {t : Tree S C M} (h : Among ts t) :
    t.id ∈ idsOf ts := by
  obtain ⟨u, hu, hut⟩ := h
  exact mem_idsOf_iff.mpr ⟨u, hu, mem_ids_iff.mpr ⟨t, hut, rfl⟩⟩

/-- Among trees without a common identity, all but one are left alone. -/
theorem replaceAtAll_split {ts : List (Tree S C M)} {t : Tree S C M} (h : Among ts t)
    (hids : (idsOf ts).Nodup) :
    ∃ before u after, ts = before ++ u :: after ∧ u.Has t ∧ u.ids.Nodup ∧
      ∀ new, replaceAtAll t.id ts new = before ++ replaceAt t.id u new :: after := by
  obtain ⟨u, hu, hut⟩ := h
  obtain ⟨before, after, rfl⟩ := List.append_of_mem hu
  have hmem : t.id ∈ u.ids := mem_ids_iff.mpr ⟨t, hut, rfl⟩
  rw [idsOf_append, idsOf_cons, List.nodup_append, List.nodup_append] at hids
  obtain ⟨-, ⟨hu, -, hafter⟩, hbefore⟩ := hids
  have hb : t.id ∉ idsOf before := fun hb =>
    hbefore _ hb _ (List.mem_append_left _ hmem) rfl
  have ha : t.id ∉ idsOf after := fun ha => hafter _ hmem _ ha rfl
  refine ⟨before, u, after, rfl, hut, hu, fun new => ?_⟩
  have hsplit : replaceAtAll t.id (before ++ u :: after) new =
      replaceAtAll t.id before new ++ replaceAt t.id u new :: replaceAtAll t.id after new := by
    simp [replaceAtAll_eq_map]
  rw [hsplit, replaceAtAll_of_not_mem hb, replaceAtAll_of_not_mem ha]

/-- An exchange inside a part is one inside the whole. -/
theorem exchange_within {α : Type} {olds news out put : List α} (before after : List α)
    (h : news ++ out ~ olds ++ put) :
    before ++ (news ++ after) ++ out ~ before ++ (olds ++ after) ++ put := by
  have hrest : news ++ after ++ out ~ olds ++ after ++ put :=
    calc news ++ after ++ out
        = news ++ (after ++ out) := List.append_assoc _ _ _
      _ ~ news ++ (out ++ after) := List.perm_append_comm.append_left _
      _ = news ++ out ++ after := (List.append_assoc _ _ _).symm
      _ ~ olds ++ put ++ after := h.append_right _
      _ = olds ++ (put ++ after) := List.append_assoc _ _ _
      _ ~ olds ++ (after ++ put) := List.perm_append_comm.append_left _
      _ = olds ++ after ++ put := (List.append_assoc _ _ _).symm
  simpa only [List.append_assoc] using hrest.append_left before

/-- In the place of a node stand the identities of the tree that is put there. -/
theorem ids_replaceAt {u t : Tree S C M} (new : Tree S C M) (h : u.Has t) (hids : u.ids.Nodup) :
    (replaceAt t.id u new).ids ++ t.ids ~ u.ids ++ new.ids := by
  induction u with
  | node j traits cs ih =>
    rw [ids_node] at hids ⊢
    obtain ⟨hj, hcs⟩ := List.nodup_cons.mp hids
    rcases has_iff.mp h with rfl | hbelow
    · rw [replaceAt, id_node, if_pos rfl, ids_node]
      exact List.perm_append_comm
    · have hne : j ≠ t.id := fun heq => hj (heq ▸ Among.id_mem hbelow)
      obtain ⟨before, c, after, hsplit, hct, hc, hreplaced⟩ := replaceAtAll_split hbelow hcs
      rw [children_node] at hsplit hreplaced
      subst hsplit
      rw [replaceAt, if_neg hne, ids_node, hreplaced]
      simpa using exchange_within (j :: idsOf before) (idsOf after) (ih c (by simp) hct hc)

theorem idsOf_replaceAtAll {ts : List (Tree S C M)} {t : Tree S C M} (new : Tree S C M)
    (h : Among ts t) (hids : (idsOf ts).Nodup) :
    idsOf (replaceAtAll t.id ts new) ++ t.ids ~ idsOf ts ++ new.ids := by
  obtain ⟨before, u, after, rfl, hut, hu, hreplaced⟩ := replaceAtAll_split h hids
  rw [hreplaced]
  simpa using exchange_within (idsOf before) (idsOf after) (ids_replaceAt new hut hu)

/-- A tree that is put in the place of a node is there. -/
theorem Has.replaceAt {u t : Tree S C M} (h : u.Has t) (new : Tree S C M) :
    (replaceAt t.id u new).Has new := by
  induction u with
  | node j traits cs ih =>
    rw [Tree.replaceAt]
    split
    · exact .top
    · rename_i hne
      rcases has_iff.mp h with rfl | ⟨c, hc, hct⟩
      · exact absurd rfl hne
      · rw [replaceAtAll_eq_map]
        exact (Has.child .top (List.mem_map_of_mem hc)).trans (ih c hc hct)

/-- The top of a tree keeps its identity and its traits where what is put in its place has them. -/
theorem traits_replaceAt {u new : Tree S C M} {i : NodeId} (hid : new.id = i)
    (htraits : u.id = i → new.traits = u.traits) :
    (Tree.replaceAt i u new).id = u.id ∧ (Tree.replaceAt i u new).traits = u.traits := by
  cases u
  rw [Tree.replaceAt]
  split
  · rename_i hj
    exact ⟨hid.trans hj.symm, htraits hj⟩
  · exact ⟨rfl, rfl⟩

theorem Among.replaceAtAll {ts : List (Tree S C M)} {t : Tree S C M} (h : Among ts t)
    (new : Tree S C M) : Among (replaceAtAll t.id ts new) new := by
  obtain ⟨u, hu, hut⟩ := h
  rw [replaceAtAll_eq_map]
  exact ⟨_, List.mem_map_of_mem hu, hut.replaceAt new⟩

/-- A tree in the place of a node of the same name keeps the names of siblings distinct. -/
theorem NamesDistinct.replaceAt {u new : Tree S C M} {i : NodeId} (hu : u.NamesDistinct)
    (hnew : new.NamesDistinct) (hname : ∀ t, u.Has t → t.id = i → t.name = new.name) :
    (replaceAt i u new).NamesDistinct ∧ (replaceAt i u new).name = u.name := by
  induction u with
  | node j traits cs ih =>
    rw [Tree.replaceAt]
    split
    · rename_i hj
      exact ⟨hnew, (hname _ .top hj).symm⟩
    · have hcs : ∀ c ∈ cs, (Tree.replaceAt i c new).NamesDistinct ∧
          (Tree.replaceAt i c new).name = c.name := fun c hc =>
        ih c hc (hu.child hc) fun t ht => hname t ((Has.child .top hc).trans ht)
      refine ⟨namesDistinct_iff.mpr ⟨?_, ?_⟩, rfl⟩
      · rw [children_node, replaceAtAll_eq_map, List.map_map]
        have hsame : cs.map (name ∘ fun c => Tree.replaceAt i c new) = cs.map name :=
          List.map_congr_left fun c hc => (hcs c hc).2
        rw [hsame]
        exact hu.nodup
      · rw [children_node, replaceAtAll_eq_map]
        intro d hd
        obtain ⟨c, hc, rfl⟩ := List.mem_map.mp hd
        exact (hcs c hc).1

/-- Below a node stand fewer nodes than the node has. -/
theorem Has.eq_or_length_lt {t u : Tree S C M} (h : t.Has u) :
    u = t ∨ u.ids.length < t.ids.length := by
  rcases has_iff.mp h with rfl | ⟨c, hc, hcu⟩
  · exact .inl rfl
  · have hlength := (hcu.ids_sublist.trans (ids_sublist_idsOf hc)).length_le
    rw [ids_eq t, List.length_cons]
    exact .inr (Nat.lt_succ_of_le hlength)

theorem Has.antisymm {t u : Tree S C M} (h : t.Has u) (h' : u.Has t) : t = u := by
  rcases h.eq_or_length_lt with rfl | hlt
  · rfl
  · rcases h'.eq_or_length_lt with rfl | hlt'
    · rfl
    · omega

theorem Has.id_mem {t u : Tree S C M} (h : t.Has u) : u.id ∈ t.ids := mem_ids_iff.mpr ⟨u, h, rfl⟩

/-- Trees without a common identity have no common node. -/
theorem eq_of_common_id {ts : List (Tree S C M)} (hids : (idsOf ts).Nodup) {t u : Tree S C M}
    (ht : t ∈ ts) (hu : u ∈ ts) {i : NodeId} (hit : i ∈ t.ids) (hiu : i ∈ u.ids) : t = u := by
  by_contra hne
  obtain ⟨-, hdisjoint⟩ := List.nodup_flatMap.mp hids
  have hsymm : Std.Symm (Function.onFun List.Disjoint (ids : Tree S C M → List NodeId)) :=
    ⟨fun _ _ h => h.symm⟩
  exact hdisjoint.forall ht hu hne hit hiu

/-- The only nodes that have a tree of a list are in that tree. -/
theorem Among.eq_top {ts : List (Tree S C M)} (hids : (idsOf ts).Nodup) {top a : Tree S C M}
    (htop : top ∈ ts) (ha : Among ts a) (h : a.Has top) : a = top := by
  obtain ⟨u, hu, hua⟩ := ha
  obtain rfl := eq_of_common_id hids hu htop (hua.trans h).id_mem Has.top.id_mem
  exact h.antisymm hua

/-- Where no two nodes have the same identity, whatever stands above a node stands above its
parent. -/
theorem Has.above_child {u t c a : Tree S C M} (hids : u.ids.Nodup) (ht : u.Has t)
    (hc : c ∈ t.children) (ha : u.Has a) (h : a.Has c) : a = c ∨ a.Has t := by
  induction u with
  | node i traits cs ih =>
    rw [ids_node] at hids
    have hcs := (List.nodup_cons.mp hids).2
    rcases has_iff.mp ha with rfl | ⟨d, hd, hda⟩
    · exact .inr ht
    rcases has_iff.mp ht with rfl | ⟨e, he, het⟩
    · obtain rfl := eq_of_common_id hcs hd hc (hda.trans h).id_mem Has.top.id_mem
      exact .inl (h.antisymm hda)
    · obtain rfl := eq_of_common_id hcs hd he (hda.trans h).id_mem (het.child hc).id_mem
      exact ih d hd (hcs.sublist (ids_sublist_idsOf hd)) het hda

theorem among_iff {ts : List (Tree S C M)} {t : Tree S C M} :
    Among ts t ↔ t ∈ ts.flatMap subtrees := by
  simp [Among, mem_subtrees_iff]

/-- An identity that only one node has finds the node. -/
theorem findIn_eq_some_iff {ts : List (Tree S C M)} {t : Tree S C M} {i : NodeId}
    (hids : (idsOf ts).Nodup) : findIn i ts = some t ↔ Among ts t ∧ t.id = i := by
  have hkeys : ((ts.flatMap subtrees).map id).Nodup := by
    rwa [List.map_flatMap]
  rw [findIn, find?_key_eq_some_iff hkeys, among_iff]

end Tree

namespace Workbench

variable {S C M : Type} {w : Workbench S C M} {t : Tree S C M} {i : NodeId}

theorem trees_replace (w : Workbench S C M) (i : NodeId) (new : Tree S C M) :
    (w.replace i new).trees = Tree.replaceAtAll i w.trees new := by
  simp [trees, replace, Tree.replaceAtAll_eq_map, List.map_flatMap, List.flatMap_map]

theorem trees_keep (w : Workbench S C M) (t : Tree S C M) : (w.keep t).trees ~ t :: w.trees := by
  simp only [trees, keep, List.cons_append, List.append_assoc]
  exact (List.Perm.cons _ List.perm_middle).trans (List.Perm.swap _ _ _)

theorem find?_eq_some_iff (hids : (Tree.idsOf w.trees).Nodup) :
    w.find? i = some t ↔ Tree.Among w.trees t ∧ t.id = i := Tree.findIn_eq_some_iff hids

/-- A node on the workbench is found by its identity. -/
theorem resolve_of_among (hids : (Tree.idsOf w.trees).Nodup) (h : Tree.Among w.trees t) :
    w.resolve t.id = t := by
  rw [resolve, (find?_eq_some_iff hids).mpr ⟨h, rfl⟩, Option.getD_some]

/-- The node that gets a child, with the child among its children. -/
def grown (w : Workbench S C M) (t c : Tree S C M) : Tree S C M :=
  .node t.id t.traits (Tree.insertChild w.step t.children c)

/-- The workbench after a child was added to a node on it. -/
def withChild (w : Workbench S C M) (t c : Tree S C M) : Workbench S C M :=
  let w' := { w.replace t.id (w.grown t c) with step := w.step + 1 }
  if Tree.anyNamed c.name t.children then w'.keep c else w'

theorem addChild_of_among {c : Tree S C M} (hids : (Tree.idsOf w.trees).Nodup)
    (h : Tree.Among w.trees t) (hc : c.isRoot = false) :
    w.addChild t.id c = (.ok (), w.withChild t c) := by
  rw [addChild, resolve_of_among hids h, Tree.addChild, hc]
  rfl

/-- What stands in the place of a node, less the node, is what was there and what was added. -/
theorem idsOf_replace_subperm (new : Tree S C M) (more : List NodeId) (h : Tree.Among w.trees t)
    (hids : (Tree.idsOf w.trees).Nodup) (hmore : new.ids <+~ t.ids ++ more) :
    Tree.idsOf (w.replace t.id new).trees <+~ Tree.idsOf w.trees ++ more := by
  have hperm := Tree.idsOf_replaceAtAll new h hids
  rw [← trees_replace] at hperm
  rw [← List.subperm_append_right t.ids]
  refine hperm.subperm.trans ?_
  rw [List.append_assoc]
  refine (List.subperm_append_left _).mpr (hmore.trans ?_)
  exact List.perm_append_comm.subperm

/-- Adding a child gives out new identities to copies only. -/
theorem fresh_withChild {c : Tree S C M} (hw : Tree.Fresh w.step (Tree.idsOf (c :: w.trees)))
    (h : Tree.Among w.trees t) (ht : t.NamesDistinct) (hc : c.NamesDistinct) :
    Tree.Fresh (w.step + 1) (Tree.idsOf (w.withChild t c).trees) := by
  rw [Tree.idsOf_cons] at hw
  have hids := (List.nodup_append.mp hw.nodup).2.1
  have hcids := (List.nodup_append.mp hw.nodup).1
  obtain ⟨-, hadds⟩ := Tree.insertChild_spec w.step (Tree.namesDistinct_iff.mp ht) hc
  have hgrown : (w.grown t c).ids = t.id :: Tree.idsOf (Tree.insertChild w.step t.children c) :=
    Tree.ids_node _ _ _
  refine hw.adds hcids ?_
  unfold withChild
  cases hn : Tree.anyNamed c.name t.children with
  | true =>
    rw [hn, if_pos rfl] at hadds
    obtain ⟨added, hsub, hnews⟩ := hadds
    refine ⟨added, hsub, ?_⟩
    have hpart := idsOf_replace_subperm (w.grown t c) (added.map (w.step :: ·)) h hids (by
      rw [hgrown, Tree.ids_eq t, List.cons_append]
      exact (List.subperm_cons _).mpr hnews)
    have hkeep := ((trees_keep { w.replace t.id (w.grown t c) with step := w.step + 1 } c).flatMap_right
      Tree.ids).subperm
    refine hkeep.trans ?_
    rw [List.append_assoc]
    exact (List.subperm_append_left c.ids).mpr hpart
  | false =>
    rw [hn, if_neg (by simp)] at hadds
    have hpart := idsOf_replace_subperm (w.grown t c) c.ids h hids (by
      rw [hgrown, Tree.ids_eq t, hadds, List.cons_append])
    exact .nothing (hpart.trans List.perm_append_comm.subperm)

end Workbench

end CommandTree
