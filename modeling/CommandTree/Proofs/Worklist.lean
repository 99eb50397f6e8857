import CommandTree.Proofs.Calls
import CommandTree.Tree.Worklist
import Mathlib

/-!
Copying and merging with a queue of work come to the same trees as copying and merging by recursion.
What waits in the queue concerns different parts of the tree, so it may be done in any order; doing all
that follows from one item before the next one is the recursion. Main statement: whatever calls were
made, adding a child merges it as the queue does.
-/

namespace CommandTree

namespace Tree

variable {S C M : Type}

/-! Changes at different places -/

/-- Neither of two places is inside the other. -/
inductive Apart : List Nat → List Nat → Prop
  | here {i j : Nat} (h : i ≠ j) (v w : List Nat) : Apart (i :: v) (j :: w)
  | inside (i : Nat) {v w : List Nat} (h : Apart v w) : Apart (i :: v) (i :: w)

namespace Apart

theorem symm {v w : List Nat} (h : Apart v w) : Apart w v := by
  induction h with
  | here h v w => exact .here h.symm w v
  | inside i _ ih => exact .inside i ih

theorem append {v w : List Nat} (h : Apart v w) (x : List Nat) : Apart v (w ++ x) := by
  induction h with
  | here h v w => exact .here h v (w ++ x)
  | inside i _ ih => exact .inside i ih

/-- The places of two children are apart. -/
theorem children {i j : Nat} (h : i ≠ j) (way : List Nat) : Apart (way ++ [i]) (way ++ [j]) := by
  induction way with
  | nil => exact .here h [] []
  | cons k way ih => exact .inside k ih

end Apart

theorem modifyAt_append (f : Tree S C M → Tree S C M) (v w : List Nat) (t : Tree S C M) :
    t.modifyAt f (v ++ w) = t.modifyAt (modifyAt f w) v := by
  induction v generalizing t with
  | nil => rfl
  | cons i v ih =>
    cases t with
    | node id traits cs => rw [List.cons_append, modifyAt, modifyAt, funext ih]

theorem modifyAt_modifyAt (f g : Tree S C M → Tree S C M) (way : List Nat) (t : Tree S C M) :
    (t.modifyAt f way).modifyAt g way = t.modifyAt (fun n => g (f n)) way := by
  induction way generalizing t with
  | nil => rfl
  | cons i way ih =>
    cases t with
    | node id traits cs =>
      rw [modifyAt, modifyAt, modifyAt, List.modify_modify_eq]
      exact congrArg (fun h => node id traits (cs.modify i h)) (funext ih)

/-- Only what is done with the node at the place counts. -/
theorem modifyAt_congr {f g : Tree S C M → Tree S C M} {way : List Nat} {t : Tree S C M}
    (h : ∀ n, t.nodeAt? way = some n → f n = g n) : t.modifyAt f way = t.modifyAt g way := by
  induction way generalizing t with
  | nil => exact h t rfl
  | cons i way ih =>
    cases t with
    | node id traits cs =>
      rw [modifyAt, modifyAt]
      congr 1
      refine List.ext_getElem? fun j => ?_
      rw [List.getElem?_modify, List.getElem?_modify]
      cases hc : cs[j]? with
      | none => rfl
      | some c =>
        by_cases hij : i = j
        · subst hij
          have hbelow : c.modifyAt f way = c.modifyAt g way :=
            ih fun n hn => h n (by rw [nodeAt?, children_node, hc]; exact hn)
          simp [hbelow]
        · simp [hij]

theorem modifyAt_id (way : List Nat) (t : Tree S C M) : t.modifyAt (fun n => n) way = t := by
  induction way generalizing t with
  | nil => rfl
  | cons i way ih =>
    cases t with
    | node id traits cs =>
      rw [modifyAt, funext ih]
      exact congrArg (node id traits) (List.modify_id i cs)

theorem modifyAt_of_none {way : List Nat} {t : Tree S C M} (h : t.nodeAt? way = none)
    (f : Tree S C M → Tree S C M) : t.modifyAt f way = t :=
  (modifyAt_congr fun n hn => by simp [h] at hn).trans (modifyAt_id way t)

theorem modifyAt_comm {v w : List Nat} (h : Apart v w) (f g : Tree S C M → Tree S C M)
    (t : Tree S C M) : (t.modifyAt f v).modifyAt g w = (t.modifyAt g w).modifyAt f v := by
  induction h generalizing t with
  | here h v w =>
    cases t with
    | node id traits cs => rw [modifyAt, modifyAt, modifyAt, modifyAt, List.modify_modify_ne _ _ _ h]
  | inside i _ ih =>
    cases t with
    | node id traits cs =>
      rw [modifyAt, modifyAt, modifyAt, modifyAt, List.modify_modify_eq, List.modify_modify_eq]
      exact congrArg (fun h => node id traits (cs.modify i h)) (funext ih)

theorem nodeAt?_modifyAt_apart {v w : List Nat} (h : Apart v w) (f : Tree S C M → Tree S C M)
    (t : Tree S C M) : (t.modifyAt f w).nodeAt? v = t.nodeAt? v := by
  induction h generalizing t with
  | here h v w =>
    cases t with
    | node id traits cs =>
      rw [modifyAt, nodeAt?, nodeAt?, children_node, children_node,
        List.getElem?_modify_ne _ _ (Ne.symm h)]
  | inside i _ ih =>
    cases t with
    | node id traits cs =>
      rw [modifyAt, nodeAt?, nodeAt?, children_node, children_node, List.getElem?_modify]
      cases cs[i]? with
      | none => rfl
      | some c => simpa using ih c

theorem nodeAt?_modifyAt_child {way : List Nat} {t : Tree S C M} {n : Tree S C M}
    (h : t.nodeAt? way = some n) (f : Tree S C M → Tree S C M) (i : Nat) :
    (t.modifyAt f way).nodeAt? (way ++ [i]) = (f n).children[i]? := by
  induction way generalizing t with
  | nil =>
    obtain rfl := Option.some.inj h
    rw [modifyAt, List.nil_append, nodeAt?]
    cases (f t).children[i]? <;> rfl
  | cons k way ih =>
    cases t with
    | node id traits cs =>
      rw [nodeAt?, children_node] at h
      rw [modifyAt, List.cons_append, nodeAt?, children_node, List.getElem?_modify]
      cases hc : cs[k]? with
      | none => simp [hc] at h
      | some c =>
        rw [hc] at h
        simpa using ih h

/-! Working off a queue -/

/-- Does one job whole. -/
def Job.complete (whole : Tree S C M → Tree S C M → Tree S C M) (t : Tree S C M) (job : Job S C M) :
    Tree S C M :=
  t.modifyAt (fun n => whole n job.incoming) job.way

/-- A round begins what is to be done as a whole: if all that follows from it is done whole, so is what
it began with. -/
structure Begins (round : Tree S C M → (incoming : Tree S C M) → Round incoming)
    (whole : Tree S C M → Tree S C M → Tree S C M) (Fit : Tree S C M → Tree S C M → Prop) : Prop where
  settles : ∀ n incoming, Fit n incoming → (round n incoming).next.foldl
    (fun u x => u.modifyAt (fun c => whole c x.1) [x.2]) (round n incoming).node = whole n incoming
  keeps : ∀ n incoming, Fit n incoming → ∀ x ∈ (round n incoming).next, ∀ c,
    (round n incoming).node.children[x.2]? = some c → Fit c x.1
  distinct : ∀ n incoming, Fit n incoming → ((round n incoming).next.map Prod.snd).Nodup

/-- What follows from a job is done inside the node that the job is about. -/
theorem foldl_complete_below (whole : Tree S C M → Tree S C M → Tree S C M) (way : List Nat)
    (next : List (Tree S C M × Nat)) (n t : Tree S C M) :
    (next.map fun x => (⟨way ++ [x.2], x.1⟩ : Job S C M)).foldl (Job.complete whole)
        (t.modifyAt (fun _ => n) way) =
      t.modifyAt (fun _ =>
        next.foldl (fun u x => u.modifyAt (fun c => whole c x.1) [x.2]) n) way := by
  induction next generalizing n with
  | nil => rfl
  | cons x next ih =>
    rw [List.map_cons, List.foldl_cons, List.foldl_cons, ← ih, Job.complete, modifyAt_append,
      modifyAt_modifyAt]

/-- Jobs about different parts of the tree may be done in any order. -/
theorem foldl_complete_comm (whole : Tree S C M → Tree S C M → Tree S C M)
    {jobs jobs' : List (Job S C M)} (h : ∀ a ∈ jobs, ∀ b ∈ jobs', Apart a.way b.way)
    (t : Tree S C M) :
    jobs'.foldl (Job.complete whole) (jobs.foldl (Job.complete whole) t) =
      jobs.foldl (Job.complete whole) (jobs'.foldl (Job.complete whole) t) := by
  induction jobs generalizing t with
  | nil => rfl
  | cons a jobs ih =>
    obtain ⟨ha, hjobs⟩ := List.forall_mem_cons.mp h
    have hone : ∀ t, jobs'.foldl (Job.complete whole) (Job.complete whole t a) =
        Job.complete whole (jobs'.foldl (Job.complete whole) t) a := by
      clear h ih hjobs
      induction jobs' with
      | nil => exact fun _ => rfl
      | cons b jobs' ih =>
        obtain ⟨hb, hrest⟩ := List.forall_mem_cons.mp ha
        intro t
        rw [List.foldl_cons, List.foldl_cons, ← ih hrest]
        exact congrArg (fun u => jobs'.foldl (Job.complete whole) u) (modifyAt_comm hb _ _ t)
    rw [List.foldl_cons, List.foldl_cons, ih hjobs, hone]

/-- Working off a queue does every job in it whole, if the jobs are about different parts of the tree. -/
theorem workOff_eq_foldl {round : Tree S C M → (incoming : Tree S C M) → Round incoming}
    {whole : Tree S C M → Tree S C M → Tree S C M} {Fit : Tree S C M → Tree S C M → Prop}
    (hround : Begins round whole Fit) (t : Tree S C M) (jobs : List (Job S C M))
    (hapart : jobs.Pairwise fun a b => Apart a.way b.way)
    (hfit : ∀ job ∈ jobs, ∀ n, t.nodeAt? job.way = some n → Fit n job.incoming) :
    workOff round t jobs = jobs.foldl (Job.complete whole) t := by
  induction t, jobs using workOff.induct round with
  | case1 t => rw [workOff]; rfl
  | case2 t job rest hnone ih =>
    obtain ⟨-, hrest⟩ := List.pairwise_cons.mp hapart
    rw [workOff, hnone, List.foldl_cons, Job.complete, modifyAt_of_none hnone]
    exact ih hrest fun job hjob => hfit job (List.mem_cons_of_mem _ hjob)
  | case3 t job rest n hn r ih =>
    obtain ⟨hjob, hrest⟩ := List.pairwise_cons.mp hapart
    obtain ⟨hhere, hthere⟩ := List.forall_mem_cons.mp hfit
    have hcross : ∀ a ∈ rest, ∀ b ∈ r.jobs job.way, Apart a.way b.way := by
      intro a ha b hb
      obtain ⟨x, -, rfl⟩ := List.mem_map.mp hb
      exact (hjob a ha).symm.append [x.2]
    have hbelow : (r.jobs job.way).Pairwise fun a b => Apart a.way b.way := by
      rw [Round.jobs, List.pairwise_map]
      exact (List.pairwise_map.mp (hround.distinct n job.incoming (hhere n hn))).imp
        fun hne => .children hne job.way
    rw [workOff, hn]
    dsimp only
    rw [ih (List.pairwise_append.mpr ⟨hrest, hbelow, hcross⟩), List.foldl_append,
      foldl_complete_comm whole hcross, Round.jobs, foldl_complete_below,
      hround.settles n job.incoming (hhere n hn), List.foldl_cons, Job.complete]
    · refine congrArg (rest.foldl (Job.complete whole)) (modifyAt_congr fun u hu => ?_)
      obtain rfl := Option.some.inj (hn.symm.trans hu)
      rfl
    · intro a ha u hu
      rcases List.mem_append.mp ha with ha | ha
      · rw [nodeAt?_modifyAt_apart (hjob a ha).symm] at hu
        exact hthere a ha u hu
      · obtain ⟨x, hx, rfl⟩ := List.mem_map.mp ha
        rw [nodeAt?_modifyAt_child hn] at hu
        exact hround.keeps n job.incoming (hhere n hn) x hx u hu

/-- What is done at children is done to the list of them. -/
theorem foldl_modifyAt_child (f : Tree S C M → Tree S C M → Tree S C M)
    (next : List (Tree S C M × Nat)) (id : NodeId) (traits : Traits S C M) (cs : List (Tree S C M)) :
    next.foldl (fun u x => u.modifyAt (fun c => f c x.1) [x.2]) (node id traits cs) =
      node id traits (next.foldl (fun ds x => ds.modify x.2 fun c => f c x.1) cs) := by
  induction next generalizing cs with
  | nil => rfl
  | cons x next ih => exact ih _

theorem modify_middle {α : Type} (as : List α) (b : α) (cs : List α) (f : α → α) :
    (as ++ b :: cs).modify as.length f = as ++ f b :: cs := by
  induction as with
  | nil => rfl
  | cons a as ih => simpa using ih

/-! Copying -/

/-- Fills a node with copies of the children of another one. -/
def fill (step : Nat) (copied original : Tree S C M) : Tree S C M :=
  node copied.id copied.traits (copied.children ++ copyAll step original.children)

theorem fill_copyAlone (step : Nat) (t : Tree S C M) : fill step (t.copyAlone step) t = t.copy step := by
  cases t; rfl

theorem foldl_fill (step : Nat) (before cs : List (Tree S C M)) :
    (cs.zipIdx before.length).foldl (fun ds x => ds.modify x.2 fun c => fill step c x.1)
        (before ++ cs.map (copyAlone step)) = before ++ copyAll step cs := by
  induction cs generalizing before with
  | nil => rfl
  | cons c cs ih =>
    have hhere : (before ++ copyAlone step c :: cs.map (copyAlone step)).modify before.length
        (fun d => fill step d c) = (before ++ [c.copy step]) ++ cs.map (copyAlone step) := by
      rw [modify_middle, fill_copyAlone, List.append_assoc, List.singleton_append]
    have hrest := ih (before ++ [c.copy step])
    rw [List.length_append, List.length_singleton] at hrest
    rw [List.zipIdx_cons, List.foldl_cons, List.map_cons, hhere, hrest, copyAll, List.append_assoc]
    rfl

theorem copyRound_begins (step : Nat) :
    Begins (copyRound step) (fill step) fun _ _ : Tree S C M => True where
  settles n original _ := by
    rw [copyRound, foldl_modifyAt_child, foldl_fill]
    rfl
  keeps _ _ _ _ _ _ _ := trivial
  distinct n original _ := by
    rw [copyRound, List.zipIdx_map_snd]
    exact List.nodup_range' _

/-- A copy made level by level is the copy. -/
theorem clone_eq_copy (step : Nat) (t : Tree S C M) : t.clone step = t.copy step := by
  rw [clone, workOff_eq_foldl (copyRound_begins step) _ _ (List.pairwise_singleton _ _)
    fun _ _ _ _ => trivial]
  exact fill_copyAlone step t

/-! Merging -/

/-- Where a name is taken by one sibling, all of that name is this one. -/
theorem map_eq_modify {cs : List (Tree S C M)} {n : Text} {i : Nat} (hcs : (cs.map name).Nodup)
    (hi : cs.findIdx? (fun d => d.name = n) = some i) (f : Tree S C M → Tree S C M) :
    (cs.map fun d => if d.name = n then f d else d) = cs.modify i f := by
  obtain ⟨hlt, hname, -⟩ := List.findIdx?_eq_some_iff_getElem.mp hi
  refine List.ext_getElem? fun j => ?_
  rw [List.getElem?_map, List.getElem?_modify]
  cases hj : cs[j]? with
  | none => rfl
  | some d =>
    obtain ⟨hjlt, rfl⟩ := List.getElem?_eq_some_iff.mp hj
    have hsame : cs[j].name = n ↔ i = j := by
      constructor
      · intro hd
        have hnames : (cs.map name)[i]? = (cs.map name)[j]? := by
          simpa [hlt, hjlt, hd] using hname
        exact (List.getElem?_inj (by simpa using hlt) hcs).mp hnames
      · rintro rfl
        simpa using hname
    simp [hsame]

theorem map_name_modify {f : Tree S C M → Tree S C M} (hf : ∀ t, (f t).name = t.name) (i : Nat)
    (cs : List (Tree S C M)) : (cs.modify i f).map name = cs.map name := by
  refine List.ext_getElem? fun j => ?_
  rw [List.getElem?_map, List.getElem?_map, List.getElem?_modify]
  cases cs[j]? with
  | none => rfl
  | some d => by_cases hij : i = j <;> simp [hij, hf]

theorem findIdx?_name_eq (n : Text) (cs : List (Tree S C M)) :
    cs.findIdx? (fun d => d.name = n) = (cs.map name).findIdx? fun m => m = n := by
  rw [List.findIdx?_map]
  rfl

theorem modify_append_of_lt {α : Type} {as : List α} {i : Nat} (hi : i < as.length) (bs : List α)
    (f : α → α) : (as ++ bs).modify i f = as.modify i f ++ bs := by
  induction as generalizing i with
  | nil => simp at hi
  | cons a as ih =>
    cases i with
    | zero => rfl
    | succ i => simpa using ih (by simpa using hi)

/-- A change to a sibling that keeps the name may be made before or after others are taken in. -/
theorem takeIn_modify (step : Nat) {f : Tree S C M → Tree S C M} (hf : ∀ t, (f t).name = t.name)
    {cs : List (Tree S C M)} {i : Nat} (hi : i < cs.length) (ds : List (Tree S C M)) :
    takeIn step (cs.modify i f) ds = ((takeIn step cs ds).1.modify i f, (takeIn step cs ds).2) := by
  induction ds generalizing cs with
  | nil => rfl
  | cons d ds ih =>
    have hsame : (cs.modify i f).findIdx? (fun c => c.name = d.name) =
        cs.findIdx? fun c => c.name = d.name := by
      rw [findIdx?_name_eq, findIdx?_name_eq, map_name_modify hf]
    rw [takeIn, takeIn, hsame]
    cases cs.findIdx? (fun c => c.name = d.name) with
    | none =>
      dsimp only
      rw [← modify_append_of_lt hi, ih (by rw [List.length_append]; omega)]
    | some j =>
      dsimp only
      rw [ih hi]

theorem findIdx?_name_eq_none_iff {n : Text} {cs : List (Tree S C M)} :
    cs.findIdx? (fun d => d.name = n) = none ↔ anyNamed n cs = false := by
  simp [List.findIdx?_eq_none_iff, anyNamed]

/-- Copies first, and then what is merged, is one after another. -/
theorem foldl_absorb (step : Nat) {cs : List (Tree S C M)} (hcs : (cs.map name).Nodup)
    (ds : List (Tree S C M)) :
    (takeIn step cs ds).2.foldl (fun cs x => cs.modify x.2 fun c => absorb step c x.1)
        (takeIn step cs ds).1 = absorbAll step cs ds := by
  induction ds generalizing cs with
  | nil => rfl
  | cons d ds ih =>
    rw [takeIn, absorbAll]
    cases hi : cs.findIdx? (fun c => c.name = d.name) with
    | none =>
      have hnone : anyNamed d.name cs = false := findIdx?_name_eq_none_iff.mp hi
      have hnew : ∀ c ∈ cs, c.name ≠ d.name := by simpa [anyNamed] using hnone
      have hnodup : ((cs ++ [d.copy step]).map name).Nodup := by
        rw [List.map_append, List.nodup_append]
        exact ⟨hcs, by simp, by simpa using hnew⟩
      rw [hnone, clone_eq_copy]
      exact ih hnodup
    | some i =>
      have hsome : anyNamed d.name cs = true := by
        rw [← Bool.not_eq_false, ← findIdx?_name_eq_none_iff, hi]
        simp
      obtain ⟨hlt, -⟩ := List.findIdx?_eq_some_iff_getElem.mp hi
      have hname : ∀ t : Tree S C M, (absorb step t d).name = t.name := fun t => name_absorb step t d
      have htake := takeIn_modify step hname hlt ds
      have hrest := ih (by rwa [map_name_modify hname i cs])
      rw [htake] at hrest
      rw [hsome, if_pos rfl, map_eq_modify hcs hi]
      exact hrest

theorem takeIn_prefix (step : Nat) (cs ds : List (Tree S C M)) : cs <+: (takeIn step cs ds).1 := by
  induction ds generalizing cs with
  | nil => exact List.prefix_refl cs
  | cons d ds ih =>
    rw [takeIn]
    split
    · exact (List.prefix_append _ _).trans (ih _)
    · exact ih cs

theorem mem_takeIn {step : Nat} {cs ds : List (Tree S C M)} {c : Tree S C M}
    (hc : c ∈ (takeIn step cs ds).1) : c ∈ cs ∨ ∃ d ∈ ds, c = d.copy step := by
  induction ds generalizing cs with
  | nil => exact .inl hc
  | cons d ds ih =>
    rw [takeIn] at hc
    split at hc
    · rcases ih hc with hc | ⟨e, he, rfl⟩
      · rcases List.mem_append.mp hc with hc | hc
        · exact .inl hc
        · exact .inr ⟨d, List.mem_cons_self, by rw [List.mem_singleton.mp hc, clone_eq_copy]⟩
      · exact .inr ⟨e, List.mem_cons_of_mem _ he, rfl⟩
    · rcases ih hc with hc | ⟨e, he, rfl⟩
      · exact .inl hc
      · exact .inr ⟨e, List.mem_cons_of_mem _ he, rfl⟩

/-- What is to be taken in next has the name of the sibling that is to do so. -/
theorem name_of_takeIn {step : Nat} {cs ds : List (Tree S C M)} {x : Tree S C M × Nat}
    (hx : x ∈ (takeIn step cs ds).2) :
    ∃ c, (takeIn step cs ds).1[x.2]? = some c ∧ c.name = x.1.name := by
  induction ds generalizing cs with
  | nil => simp [takeIn] at hx
  | cons d ds ih =>
    rw [takeIn] at hx ⊢
    cases hi : cs.findIdx? (fun c => c.name = d.name) with
    | none =>
      rw [hi] at hx
      exact ih hx
    | some i =>
      rw [hi] at hx
      rcases List.mem_cons.mp hx with rfl | hx
      · obtain ⟨hlt, hname, -⟩ := List.findIdx?_eq_some_iff_getElem.mp hi
        obtain ⟨more, hmore⟩ := takeIn_prefix step cs ds
        refine ⟨cs[i], ?_, by simpa using hname⟩
        dsimp only
        rw [← hmore, List.getElem?_append_left hlt, List.getElem?_eq_getElem hlt]
      · exact ih hx

theorem mergeRound_begins (step : Nat) :
    Begins (mergeRound step) (absorb step) fun t incoming : Tree S C M =>
      t.NamesDistinct ∧ incoming.NamesDistinct where
  settles n incoming := by
    rintro ⟨hn, -⟩
    rw [mergeRound, foldl_modifyAt_child (absorb step), foldl_absorb step hn.nodup]
    cases n
    cases incoming
    rfl
  keeps n incoming := by
    rintro ⟨hn, hincoming⟩ x hx c hc
    have hbelow := (takeIn_below step n.children incoming.children).subset (List.mem_map_of_mem hx)
    refine ⟨?_, hincoming.child hbelow⟩
    rcases mem_takeIn (List.mem_of_getElem? hc) with hc | ⟨d, hd, rfl⟩
    · exact hn.child hc
    · exact (hincoming.child hd).copy step
  distinct n incoming := by
    rintro ⟨-, hincoming⟩
    have hnames : ((takeIn step n.children incoming.children).2.map fun x => x.1.name).Nodup := by
      have hsub := (takeIn_below step n.children incoming.children).map name
      rw [List.map_map] at hsub
      exact hincoming.nodup.sublist hsub
    refine List.pairwise_map.mpr ((List.pairwise_map.mp hnames).imp_of_mem ?_)
    intro x y hx hy hne heq
    obtain ⟨c, hc, hcname⟩ := name_of_takeIn hx
    obtain ⟨d, hd, hdname⟩ := name_of_takeIn hy
    rw [heq] at hc
    obtain rfl := Option.some.inj (hc.symm.trans hd)
    exact hne (hcname.symm.trans hdname)

/-- What is merged level by level is what is merged by recursion. -/
theorem merge_eq_absorb (step : Nat) {t incoming : Tree S C M} (ht : t.NamesDistinct)
    (hincoming : incoming.NamesDistinct) : t.merge step incoming = absorb step t incoming := by
  have hfit : ∀ job ∈ [(⟨[], incoming⟩ : Job S C M)], ∀ n, t.nodeAt? job.way = some n →
      n.NamesDistinct ∧ job.incoming.NamesDistinct := by
    intro job hjob n hn
    obtain rfl := List.mem_singleton.mp hjob
    obtain rfl := Option.some.inj hn
    exact ⟨ht, hincoming⟩
  rw [merge, workOff_eq_foldl (mergeRound_begins step) t _ (List.pairwise_singleton _ _) hfit]
  rfl

/-- A child is added as if it were merged level by level. -/
theorem insertChild_eq_merge (step : Nat) {cs : List (Tree S C M)} {c : Tree S C M}
    (hcs : Siblings cs) (hc : c.NamesDistinct) :
    insertChild step cs c =
      if anyNamed c.name cs then cs.map fun d => if d.name = c.name then d.merge step c else d
      else cs ++ [c] := by
  have hmerge : (cs.map fun d => if d.name = c.name then d.merge step c else d) =
      cs.map fun d => if d.name = c.name then absorb step d c else d :=
    List.map_congr_left fun d hd => by rw [merge_eq_absorb step (hcs.below d hd) hc]
  rw [hmerge, insertChild]

end Tree

/-- Whatever calls were made, a copy is made as a queue makes it, and a child is merged as a queue merges
it into the one that has its name. -/
theorem Workbench.run_worklist {S C M : Type} (options : Options) (calls : List (Call S C M)) :
    (∀ i, ((run options calls).clone i).1 =
      ((run options calls).resolve i).clone (run options calls).step) ∧
    ∀ (i : NodeId) (c : Tree S C M), c.NamesDistinct → c.isRoot = false →
      let t := (run options calls).resolve i
      t.addChild (run options calls).step c = .ok (.node t.id t.traits
        (if Tree.anyNamed c.name t.children then
          t.children.map fun d =>
            if d.name = c.name then d.merge (run options calls).step c else d
        else t.children ++ [c])) := by
  have hsound := sound_run options calls
  refine ⟨fun i => (Tree.clone_eq_copy _ _).symm, fun i c hc hroot => ?_⟩
  intro t
  have hnames : t.NamesDistinct := hsound.grammar.1.2 i
  rw [Tree.addChild, hroot, ← Tree.insertChild_eq_merge _ (Tree.namesDistinct_iff.mp hnames) hc]
  rfl

end CommandTree
