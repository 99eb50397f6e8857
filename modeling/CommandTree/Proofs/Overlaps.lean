import CommandTree.Proofs.Acceptance
import CommandTree.Proofs.Traversal
import Mathlib.Data.List.Sort

/-!
Which ambiguities are reported, and in which order. A pair of children is named by positions. Pairs are
ordered so that those of a child come before those inside it, and these before those of the next child.
Main statement: where every node accepts or refuses the examples of those beside it, the pairs reported
are the ones of which the second accepts an example of the first; each is reported once, in this order,
with exactly the examples that the second accepts.
-/

namespace CommandTree

namespace Text

theorem pairwise_insertSorted {t : Text} {us : List Text} (h : us.Pairwise (· < ·)) :
    (insertSorted t us).Pairwise (· < ·) := by
  induction us with
  | nil => exact List.pairwise_singleton _ _
  | cons u us ih =>
    obtain ⟨hu, hus⟩ := List.pairwise_cons.mp h
    rw [insertSorted]
    split
    case isTrue => exact h
    case isFalse hne =>
      split
      case isTrue hlt =>
        refine List.pairwise_cons.mpr ⟨fun v hv => ?_, h⟩
        rcases List.mem_cons.mp hv with rfl | hv
        · exact hlt
        · exact List.lt_trans hlt (hu v hv)
      case isFalse hnot =>
        have hlt : u < t := by grind
        refine List.pairwise_cons.mpr ⟨fun v hv => ?_, ih hus⟩
        rcases mem_insertSorted.mp hv with rfl | hv
        · exact hlt
        · exact hu v hv

theorem pairwise_sortedSet (ts : List Text) : (sortedSet ts).Pairwise (· < ·) := by
  induction ts with
  | nil => exact .nil
  | cons t ts ih => exact pairwise_insertSorted ih

end Text

namespace Tree

variable {S C M : Type}

theorem nodeAt?_cons_eq_some_iff {t u : Tree S C M} {i : Nat} {rest : List Nat} :
    t.nodeAt? (i :: rest) = some u ↔ ∃ c, t.children[i]? = some c ∧ c.nodeAt? rest = some u := by
  rw [nodeAt?]
  cases t.children[i]? <;> simp

theorem has_of_nodeAt {t u : Tree S C M} {way : List Nat} (h : t.nodeAt? way = some u) :
    t.Has u := by
  induction way generalizing t with
  | nil =>
    obtain rfl := Option.some.inj h
    exact .top
  | cons i rest ih =>
    obtain ⟨c, hc, hrest⟩ := nodeAt?_cons_eq_some_iff.mp h
    exact (Has.child .top (List.mem_of_getElem? hc)).trans (ih hrest)

end Tree

namespace Ambiguity

/-- Two children of one node, named by positions. -/
structure Pair where
  /-- What leads to the node. -/
  parent : List Nat
  /-- Which of its children is the first of the pair. -/
  child : Nat
  /-- Which of its children is the second. -/
  sibling : Nat

namespace Pair

variable {p q r : Pair}

/-- What leads to the first of the pair. -/
def way (p : Pair) : List Nat := p.parent ++ [p.child]

/-- The pair as it is named from a node that has the tree as one of its children. -/
def under (i : Nat) (p : Pair) : Pair := { p with parent := i :: p.parent }

/-- Pairs are in the order of the ways to their first, where a way comes before all that go on from it
and these before the way to the next child. Pairs of one child are in the order of its siblings. -/
def Before (p q : Pair) : Prop := p.way < q.way ∨ p.way = q.way ∧ p.sibling < q.sibling

theorem before_irrefl (p : Pair) : ¬ p.Before p := by
  rintro (h | ⟨-, h⟩)
  · exact List.lt_irrefl _ h
  · exact Nat.lt_irrefl _ h

theorem Before.trans (hpq : p.Before q) (hqr : q.Before r) : p.Before r := by
  rcases hpq with hpq | ⟨hway, hpq⟩
  · rcases hqr with hqr | ⟨hway', -⟩
    · exact .inl (List.lt_trans hpq hqr)
    · exact .inl (hway' ▸ hpq)
  · rcases hqr with hqr | ⟨hway', hqr⟩
    · exact .inl (hway ▸ hqr)
    · exact .inr ⟨hway.trans hway', Nat.lt_trans hpq hqr⟩

/-- The pairs of a child come before those inside it. -/
theorem before_of_inside (h : p.way <+: q.parent) : p.Before q := by
  obtain ⟨rest, hrest⟩ := h
  have hmore : [] < rest ++ [q.child] := by cases rest <;> exact List.nil_lt_cons _ _
  refine .inl ?_
  calc p.way = p.way ++ [] := (List.append_nil _).symm
    _ < p.way ++ (rest ++ [q.child]) := List.append_left_lt hmore
    _ = q.parent ++ [q.child] := by rw [← List.append_assoc, hrest]

/-- All that concerns a child comes before what concerns a later child of the same node. -/
theorem before_of_earlier (front : List Nat) {rest rest' : List Nat} {i j : Nat} (h : i < j)
    (hp : p.way = front ++ i :: rest) (hq : q.way = front ++ j :: rest') : p.Before q := by
  refine .inl ?_
  rw [hp, hq]
  exact List.append_left_lt (List.cons_lt_cons_iff.mpr (.inl h))

theorem Before.under (h : p.Before q) (i : Nat) : (p.under i).Before (q.under i) := by
  rcases h with h | ⟨hway, h⟩
  · exact .inl (List.cons_lt_cons_iff.mpr (.inr ⟨rfl, h⟩))
  · exact .inr ⟨congrArg (i :: ·) hway, h⟩

/-- Pairs can be put in order in one way only. -/
theorem eq_of_inOrder {ps qs : List Pair} (hps : ps.Pairwise Before) (hqs : qs.Pairwise Before)
    (h : ∀ p, p ∈ ps ↔ p ∈ qs) : ps = qs := by
  have hnodup : ∀ rs : List Pair, rs.Pairwise Before → rs.Nodup := by
    intro rs hrs
    refine hrs.imp ?_
    rintro p _ hpp rfl
    exact before_irrefl p hpp
  have hperm : ps.Perm qs := (List.perm_ext_iff_of_nodup (hnodup ps hps) (hnodup qs hqs)).mpr h
  exact hperm.eq_of_pairwise (fun p q _ _ hpq hqp => absurd (hpq.trans hqp) (before_irrefl p)) hps hqs

end Pair

/-- A list has one entry for each pair of which something holds, in the order of the pairs. -/
def InOrder {α : Type} (R : Pair → α → Prop) (xs : List α) : Prop :=
  ∃ pairs : List Pair, pairs.Pairwise Pair.Before ∧ (∀ p, p ∈ pairs ↔ ∃ x, R p x) ∧
    List.Forall₂ R pairs xs

namespace InOrder

variable {α β : Type} {R Q : Pair → α → Prop} {xs ys : List α}

theorem nil (h : ∀ p x, ¬ R p x) : InOrder R [] :=
  ⟨[], .nil, fun p => by simp [h], .nil⟩

theorem singleton {p : Pair} {x : α} (h : ∀ q y, R q y ↔ q = p ∧ y = x) : InOrder R [x] :=
  ⟨[p], List.pairwise_singleton _ _, fun q => by simp [h], .cons ((h p x).mpr ⟨rfl, rfl⟩) .nil⟩

theorem congr (h : InOrder R xs) (hiff : ∀ p x, R p x ↔ Q p x) : InOrder Q xs := by
  obtain rfl : R = Q := funext fun p => funext fun x => propext (hiff p x)
  exact h

theorem append (h : InOrder R xs) (h' : InOrder Q ys)
    (hlater : ∀ p q x y, R p x → Q q y → p.Before q) :
    InOrder (fun p x => R p x ∨ Q p x) (xs ++ ys) := by
  obtain ⟨ps, hps, hmem, hfound⟩ := h
  obtain ⟨qs, hqs, hmem', hfound'⟩ := h'
  refine ⟨ps ++ qs, List.pairwise_append.mpr ⟨hps, hqs, fun p hp q hq => ?_⟩, fun p => ?_, ?_⟩
  · obtain ⟨x, hx⟩ := (hmem p).mp hp
    obtain ⟨y, hy⟩ := (hmem' q).mp hq
    exact hlater p q x y hx hy
  · rw [List.mem_append, hmem, hmem', ← exists_or]
  · exact List.rel_append (hfound.imp fun _ _ => .inl) (hfound'.imp fun _ _ => .inr)

/-- What is in order in a tree stays so where the tree stands below a node. -/
theorem under (h : InOrder R xs) (i : Nat) :
    InOrder (fun p x => ∃ q, p = q.under i ∧ R q x) xs := by
  obtain ⟨pairs, hpairs, hmem, hfound⟩ := h
  refine ⟨pairs.map (Pair.under i), ?_, fun p => ?_, ?_⟩
  · exact List.pairwise_map.mpr (hpairs.imp fun h => h.under i)
  · simp only [List.mem_map, hmem]
    constructor
    · rintro ⟨q, ⟨x, hx⟩, rfl⟩
      exact ⟨x, q, rfl, hx⟩
    · rintro ⟨x, q, rfl, hx⟩
      exact ⟨q, ⟨x, hx⟩, rfl⟩
  · exact List.forall₂_map_left_iff.mpr (hfound.imp fun q x hx => ⟨q, rfl, hx⟩)

/-- A loop keeps the order when each of its rounds does, and all of a round comes before what comes
in later ones. -/
theorem flatMap {bs : List β} {f : β → List α} {R : β → Pair → α → Prop}
    (h : ∀ b ∈ bs, InOrder (R b) (f b))
    (hlater : bs.Pairwise fun b c => ∀ p q x y, R b p x → R c q y → p.Before q) :
    InOrder (fun p x => ∃ b ∈ bs, R b p x) (bs.flatMap f) := by
  induction bs with
  | nil => exact nil fun p x => by simp
  | cons b bs ih =>
    obtain ⟨hb, hbs⟩ := List.forall_mem_cons.mp h
    obtain ⟨hfirst, hrest⟩ := List.pairwise_cons.mp hlater
    rw [List.flatMap_cons]
    refine (hb.append (ih hbs hrest) ?_).congr fun p x => ?_
    · rintro p q x y hp ⟨c, hc, hq⟩
      exact hfirst c hc p q x y hp hq
    · rw [List.exists_mem_cons_iff]

/-- Where one thing at most holds of each pair, only one list has the entries in order. -/
theorem unique (hR : ∀ p x y, R p x → R p y → x = y) (h : InOrder R xs) (h' : InOrder R ys) :
    xs = ys := by
  obtain ⟨ps, hps, hmem, hfound⟩ := h
  obtain ⟨qs, hqs, hmem', hfound'⟩ := h'
  obtain rfl : ps = qs := Pair.eq_of_inOrder hps hqs fun p => (hmem p).trans (hmem' p).symm
  exact List.right_unique_forall₂' (fun p x y => hR p x y) hfound hfound'

end InOrder

variable {S C M : Type} {t : Tree S C M} {p : Pair}

/-- The pair is made of two different children of a node. -/
structure Pair.Stands (t : Tree S C M) (p : Pair) (parent child sibling : Tree S C M) : Prop where
  node : t.nodeAt? p.parent = some parent
  first : parent.children[p.child]? = some child
  second : parent.children[p.sibling]? = some sibling
  distinct : p.child ≠ p.sibling

theorem Pair.Stands.beside {parent child sibling : Tree S C M}
    (h : p.Stands t parent child sibling) : Beside t child sibling := by
  obtain ⟨hlt, hget⟩ := List.getElem?_eq_some_iff.mp h.first
  refine ⟨parent, parent.children.take p.child, parent.children.drop (p.child + 1),
    Tree.has_of_nodeAt h.node, by simp [← hget], ?_⟩
  rw [← List.eraseIdx_eq_take_drop_succ]
  exact List.mem_eraseIdx_iff_getElem?.mpr ⟨p.sibling, h.distinct.symm, h.second⟩

/-- What is found out about a pair. -/
def FoundAt (t : Tree S C M) (p : Pair) (x : Except Fault (Ambiguity S C M)) : Prop :=
  ∃ parent child sibling, p.Stands t parent child sibling ∧ x ∈ between parent child sibling

/-- What one round of a search finds out, which is about a child at a position: first about the child
and each of its siblings, then inside it. -/
def round (t : Tree S C M) (c : Tree S C M × Nat) : List (Except Fault (Ambiguity S C M)) :=
  ((t.children.zipIdx.filter fun s => s.2 ≠ c.2).flatMap fun s => between t c.1 s.1) ++ search c.1

/-- What is found out about a pair that a child is the first of, or inside the child. -/
def FoundWith (t : Tree S C M) (c : Tree S C M × Nat) (p : Pair)
    (x : Except Fault (Ambiguity S C M)) : Prop :=
  (∃ s ∈ t.children.zipIdx.filter fun s => s.2 ≠ c.2,
    p = ⟨[], c.2, s.2⟩ ∧ x ∈ between t c.1 s.1) ∨ ∃ q, p = q.under c.2 ∧ FoundAt c.1 q x

theorem FoundWith.way {c : Tree S C M × Nat} {x : Except Fault (Ambiguity S C M)}
    (h : FoundWith t c p x) : ∃ rest, p.way = c.2 :: rest := by
  rcases h with ⟨s, -, rfl, -⟩ | ⟨q, rfl, -⟩
  · exact ⟨[], rfl⟩
  · exact ⟨q.way, rfl⟩

/-- Every pair of a tree concerns one of its children. -/
theorem foundAt_iff {x : Except Fault (Ambiguity S C M)} :
    FoundAt t p x ↔ ∃ c ∈ t.children.zipIdx, FoundWith t c p x := by
  constructor
  · rintro ⟨parent, child, sibling, ⟨hparent, hchild, hsibling, hne⟩, hx⟩
    obtain ⟨_ | ⟨i, rest⟩, k, j⟩ := p
    · obtain rfl := Option.some.inj hparent
      refine ⟨(child, k), List.mk_mem_zipIdx_iff_getElem?.mpr hchild,
        .inl ⟨(sibling, j), List.mem_filter.mpr ⟨?_, by simpa using hne.symm⟩, rfl, hx⟩⟩
      exact List.mk_mem_zipIdx_iff_getElem?.mpr hsibling
    · obtain ⟨c, hc, hrest⟩ := Tree.nodeAt?_cons_eq_some_iff.mp hparent
      exact ⟨(c, i), List.mk_mem_zipIdx_iff_getElem?.mpr hc, .inr ⟨⟨rest, k, j⟩, rfl, parent, child,
        sibling, ⟨hrest, hchild, hsibling, hne⟩, hx⟩⟩
  · rintro ⟨⟨c, i⟩, hc, ⟨⟨s, j⟩, hs, rfl, hx⟩ |
      ⟨q, rfl, parent, child, sibling, ⟨hparent, hchild, hsibling, hne⟩, hx⟩⟩
    · obtain ⟨hs, hne⟩ := List.mem_filter.mp hs
      exact ⟨t, c, s, ⟨rfl, List.mk_mem_zipIdx_iff_getElem?.mp hc,
        List.mk_mem_zipIdx_iff_getElem?.mp hs, Ne.symm (of_decide_eq_true hne)⟩, hx⟩
    · exact ⟨parent, child, sibling, ⟨Tree.nodeAt?_cons_eq_some_iff.mpr
        ⟨c, List.mk_mem_zipIdx_iff_getElem?.mp hc, hparent⟩, hchild, hsibling, hne⟩, hx⟩

theorem pairwise_zipIdx {α : Type} (xs : List α) :
    xs.zipIdx.Pairwise fun a b => a.2 < b.2 := by
  rw [← List.pairwise_map (R := (· < ·)), List.zipIdx_map_snd]
  exact List.pairwise_lt_range'

/-- The siblings of a child are all children but the one at its position. -/
theorem siblings_eq {α : Type} (before cs : List α) (c : α) :
    before ++ cs =
      ((before ++ c :: cs).zipIdx.filter fun s => s.2 ≠ before.length).map Prod.fst := by
  have hbefore : (before.zipIdx.filter fun s => s.2 ≠ before.length) = before.zipIdx :=
    List.filter_eq_self.mpr fun s hs =>
      decide_eq_true (Nat.ne_of_lt (by simpa using List.snd_lt_of_mem_zipIdx hs))
  have hcs : ((cs.zipIdx (before.length + 1)).filter fun s => s.2 ≠ before.length) =
      cs.zipIdx (before.length + 1) :=
    List.filter_eq_self.mpr fun s hs =>
      decide_eq_true (Nat.ne_of_gt (List.le_snd_of_mem_zipIdx hs))
  rw [List.zipIdx_append, List.filter_append, List.zipIdx_cons,
    List.filter_cons_of_neg (by simp), Nat.zero_add, hbefore, hcs, List.map_append,
    List.zipIdx_map_fst, List.zipIdx_map_fst]

/-- A search goes through the children of the node, one round for each. -/
theorem search_eq_rounds (t : Tree S C M) : search t = t.children.zipIdx.flatMap (round t) := by
  obtain ⟨id, traits, cs⟩ := t
  have hamong : ∀ after before : List (Tree S C M), before ++ after = cs →
      searchAmong (.node id traits cs) before after =
        (after.zipIdx before.length).flatMap (round (.node id traits cs)) := by
    -- The children before grow while those after are used up, so the induction is for all of them.
    intro after
    induction after with
    | nil => exact fun before _ => rfl
    | cons c rest ih =>
      intro before hsplit
      have hlater := ih (before ++ [c]) (by simpa using hsplit)
      rw [List.length_append, List.length_singleton] at hlater
      rw [searchAmong, hlater, siblings_eq before rest c, hsplit, List.flatMap_map,
        List.zipIdx_cons, List.flatMap_cons]
      rfl
  rw [search]
  exact hamong cs [] rfl

/-- One thing at most is found out about a pair. -/
theorem between_inOrder (parent child sibling : Tree S C M) (p : Pair) :
    InOrder (fun q x => q = p ∧ x ∈ between parent child sibling)
      (between parent child sibling) := by
  unfold between
  split
  · exact .singleton (p := p) fun q y => by simp
  · exact .nil fun q y => by simp
  · exact .singleton (p := p) fun q y => by simp

theorem round_inOrder {c : Tree S C M × Nat} (h : InOrder (FoundAt c.1) (search c.1)) :
    InOrder (FoundWith t c) (round t c) := by
  refine .append (.flatMap (fun s _ => between_inOrder t c.1 s.1 ⟨[], c.2, s.2⟩) ?_) (h.under c.2) ?_
  · refine ((pairwise_zipIdx t.children).filter _).imp ?_
    rintro s s' hlt p q x y ⟨rfl, -⟩ ⟨rfl, -⟩
    exact .inr ⟨rfl, hlt⟩
  · rintro p q x y ⟨s, -, rfl, -⟩ ⟨q, rfl, -⟩
    exact Pair.before_of_inside ⟨q.parent, rfl⟩

/-- A search goes through all pairs of its tree in their order. -/
theorem search_inOrder (t : Tree S C M) : InOrder (FoundAt t) (search t) := by
  induction t with
  | node id traits cs ih =>
    rw [search_eq_rounds]
    refine (InOrder.flatMap (fun c hc => round_inOrder (ih c.1 (List.fst_mem_of_mem_zipIdx hc)))
      ((pairwise_zipIdx cs).imp ?_)).congr fun p x =>
        (foundAt_iff (t := .node id traits cs)).symm
    -- What two rounds find out is told apart by where the ways begin.
    intro c d hlt p q x y hp hq
    obtain ⟨rest, hrest⟩ := hp.way
    obtain ⟨rest', hrest'⟩ := hq.way
    exact Pair.before_of_earlier [] hlt hrest hrest'

/-- The ambiguity of a pair: the second of its two children accepts examples of the first, and these
are the inputs, each once. -/
structure Overlap (t : Tree S C M) (p : Pair) (a : Ambiguity S C M) : Prop where
  stands : p.Stands t a.parent a.child a.sibling
  mem_iff : ∀ input, input ∈ a.inputs ↔
    input ∈ a.child.examples ∧ a.sibling.accepts input = .ok true
  increasing : a.inputs.Pairwise (· < ·)
  nonempty : a.inputs ≠ []

/-- A pair has one ambiguity at most. -/
theorem Overlap.unique {a b : Ambiguity S C M} (ha : Overlap t p a) (hb : Overlap t p b) : a = b := by
  obtain ⟨parent, child, sibling, inputs⟩ := a
  obtain ⟨parent', child', sibling', inputs'⟩ := b
  obtain ⟨⟨hnode, hfirst, hsecond, -⟩, hmem, hinc, -⟩ := ha
  obtain ⟨⟨hnode', hfirst', hsecond', -⟩, hmem', hinc', -⟩ := hb
  obtain rfl : parent = parent' := Option.some.inj (hnode.symm.trans hnode')
  obtain rfl : child = child' := Option.some.inj (hfirst.symm.trans hfirst')
  obtain rfl : sibling = sibling' := Option.some.inj (hsecond.symm.trans hsecond')
  obtain rfl : inputs = inputs' := hinc.eq_of_mem_iff hinc' fun input =>
    (hmem input).trans (hmem' input).symm
  rfl

/-- Every node accepts or refuses the examples of those beside it. -/
def Decided (t : Tree S C M) : Prop :=
  ∀ child sibling, Beside t child sibling → ∀ input ∈ child.examples, ∃ accepted,
    sibling.accepts input = .ok accepted

/-- Where the second of a pair accepts an example of the first, something is found out about it. -/
theorem Decided.found (h : Decided t) {parent child sibling : Tree S C M}
    (hstands : p.Stands t parent child sibling) {input : Text} (hin : input ∈ child.examples)
    (hacc : sibling.accepts input = .ok true) : ∃ a, FoundAt t p (.ok a) := by
  obtain ⟨found, hfound, hmem⟩ := acceptedBy_ok (h child sibling hstands.beside)
  have hin : input ∈ found := (hmem input).mpr ⟨hin, hacc⟩
  refine ⟨⟨parent, child, sibling, Text.sortedSet found⟩, parent, child, sibling, hstands, ?_⟩
  rw [between, hfound]
  cases found with
  | nil => exact absurd hin List.not_mem_nil
  | cons => exact List.mem_cons_self

/-- What is found out about a pair is its ambiguity, and nothing where it has none. -/
theorem foundAt_ok_iff (h : Decided t) {a : Ambiguity S C M} :
    FoundAt t p (.ok a) ↔ Overlap t p a := by
  have hsound : ∀ b, FoundAt t p (.ok b) → Overlap t p b := by
    rintro b ⟨parent, child, sibling, hstands, hb⟩
    obtain ⟨found, hfound, hmem⟩ := acceptedBy_ok (h child sibling hstands.beside)
    rw [between, hfound] at hb
    cases found with
    | nil => simp at hb
    | cons input rest =>
      obtain rfl := Except.ok.inj (List.mem_singleton.mp hb)
      exact ⟨hstands, fun input => Text.mem_sortedSet.trans (hmem input), Text.pairwise_sortedSet _,
        List.ne_nil_of_mem (Text.mem_sortedSet.mpr List.mem_cons_self)⟩
  refine ⟨hsound a, fun ha => ?_⟩
  obtain ⟨input, hin⟩ := List.exists_mem_of_ne_nil _ ha.nonempty
  obtain ⟨hexample, hacc⟩ := (ha.mem_iff input).mp hin
  obtain ⟨b, hb⟩ := h.found ha.stands hexample hacc
  rwa [ha.unique (hsound b hb)]

/-- A pair has an ambiguity when its second accepts an example of its first. -/
theorem exists_overlap_iff (h : Decided t) :
    (∃ a, Overlap t p a) ↔ ∃ parent child sibling, p.Stands t parent child sibling ∧
      ∃ input ∈ child.examples, sibling.accepts input = .ok true := by
  constructor
  · rintro ⟨a, ha⟩
    obtain ⟨input, hin⟩ := List.exists_mem_of_ne_nil _ ha.nonempty
    exact ⟨_, _, _, ha.stands, input, (ha.mem_iff input).mp hin⟩
  · rintro ⟨parent, child, sibling, hstands, input, hin, hacc⟩
    obtain ⟨a, ha⟩ := h.found hstands hin hacc
    exact ⟨a, (foundAt_ok_iff h).mp ha⟩

/-- A search that comes to its end has found nothing but ambiguities. -/
theorem eq_map_of_untilFault {xs : List (Except Fault (Ambiguity S C M))}
    (h : (untilFault xs).2 = .ok ()) : xs = (untilFault xs).1.map .ok := by
  induction xs with
  | nil => rfl
  | cons x rest ih =>
    cases x with
    | error f => cases h
    | ok a => exact congrArg (.ok a :: ·) (ih h)

theorem Decided.ends (h : Decided t) : (ofTree t).2 = .ok () := by
  refine ofTree_ok_iff.mpr fun child sibling hbeside input hin f hfails => ?_
  obtain ⟨accepted, haccepted⟩ := h child sibling hbeside input hin
  rw [Tree.accepts_error_iff.mpr hfails] at haccepted
  cases haccepted

/-- Where every node accepts or refuses the examples of those beside it, the search comes to its end,
and what it reports is the list of the ambiguities of all pairs in their order. -/
theorem overlaps_in_order {t : Tree S C M} (h : Decided t) :
    (ofTree t).2 = .ok () ∧
      (∀ p, (∃ a, Overlap t p a) ↔ ∃ parent child sibling, p.Stands t parent child sibling ∧
        ∃ input ∈ child.examples, sibling.accepts input = .ok true) ∧
      ∀ calls, calls = (ofTree t).1 ↔ InOrder (Overlap t) calls := by
  have hcalls : InOrder (Overlap t) (ofTree t).1 := by
    obtain ⟨pairs, hpairs, hmem, hfound⟩ := search_inOrder t
    rw [eq_map_of_untilFault h.ends, List.forall₂_map_right_iff] at hfound
    refine ⟨pairs, hpairs, fun p => ?_, hfound.imp fun p a => (foundAt_ok_iff h).mp⟩
    constructor
    · intro hp
      obtain ⟨a, -, ha⟩ := exists_partner hfound hp
      exact ⟨a, (foundAt_ok_iff h).mp ha⟩
    · rintro ⟨a, ha⟩
      exact (hmem p).mpr ⟨_, (foundAt_ok_iff h).mpr ha⟩
  refine ⟨h.ends, fun p => exists_overlap_iff h, fun calls => ⟨?_, fun hother => ?_⟩⟩
  · rintro rfl
    exact hcalls
  · exact InOrder.unique (fun p a b ha hb => ha.unique hb) hother hcalls

theorem decided_of_builtIns (h : t.OfBuiltIns) : Decided t := by
  rintro child sibling ⟨parent, front, rest, hparent, hsplit, hs⟩ input -
  have hsublist : (front ++ rest).Sublist parent.children :=
    hsplit ▸ (List.sublist_cons_self child rest).append_left front
  exact h.accepts (hparent.child (hsublist.subset hs)) input

/-- The high dial beside an argument that takes any word. -/
def panel : Tree Unit Unit Unit :=
  .node [3] (.ofKind .root) [highDial,
    .node [4] (.ofKind (.argument (text "word") (BuiltIn.string .word).toArgumentType none)) []]

/-- The dial is reported beside the argument, then what is inside the dial: each of its arguments beside
the other. -/
theorem overlaps_in_order_panel :
    Decided panel ∧ (ofTree panel).2 = .ok () ∧ InOrder (Overlap panel) (ofTree panel).1 ∧
      (ofTree panel).1.map (fun a => (a.child.name, a.sibling.name, a.inputs)) =
        [(text "dial", text "word", [text "dial"]),
          (text "level", text "other", [text "0", text "123"]),
          (text "other", text "level", [text "123"])] := by
  have hbuiltIns : panel.OfBuiltIns := by
    refine .node (fun _ _ _ hk => by cases hk) fun c hc => ?_
    rcases List.mem_pair.mp hc with rfl | rfl
    · exact dial_ofBuiltIns 100 1000 _
    · exact Tree.ofBuiltIns_argument _ _ (.string .word)
  have hdecided : Decided panel := decided_of_builtIns hbuiltIns
  obtain ⟨hends, -, hcalls⟩ := overlaps_in_order hdecided
  exact ⟨hdecided, hends, (hcalls _).mp rfl, by decide +kernel⟩

end Ambiguity

end CommandTree
