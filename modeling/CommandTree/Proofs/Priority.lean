import CommandTree.Proofs.Derivation

/-!
Which parse is chosen. In a tree without redirects the complete derivations of an input are ordered:
at every node the word that the next token is comes before the arguments, and these come in the
order of the children. Main statement: the parse is the first of them, and reaches the end of the input
only if there is one or nothing is left to read.
-/

namespace CommandTree

/-- A node that leads nowhere else, and whose conditions always have an answer. -/
structure Tree.Plain {S C M : Type} (t : Tree S C M) : Prop where
  direct : t.redirect = none
  answers : ∀ source, ∃ b, t.admits source = .ok b
  decides : ∀ q, t.traits.contextRequirement = some q → ∀ f r, ∃ b, q f r = .ok b

/-- No node of the tree leads elsewhere, and all conditions have answers. -/
def Grammar.Plain {S C M : Type} (g : Grammar S C M) : Prop := ∀ t, g.root.Has t → t.Plain

namespace Tree

variable {S C M : Type}

theorem Plain.eligible {t : Tree S C M} (h : t.Plain) (f : Frame S) (r : Reader) :
    ∃ b, t.eligible f r = .ok b := by
  obtain ⟨b, hb⟩ := h.answers f.source
  unfold Tree.eligible
  rw [hb]
  cases b with
  | false => exact ⟨false, rfl⟩
  | true =>
    cases hq : t.traits.contextRequirement with
    | none => exact ⟨true, rfl⟩
    | some q => exact h.decides q hq f r

theorem Plain.of_unconditional {t : Tree S C M} (hd : t.redirect = none)
    (hr : t.traits.requirement = none) (hq : t.traits.contextRequirement = none) : t.Plain := by
  refine ⟨hd, fun source => ⟨true, by simp [admits, hr]⟩, fun q h => ?_⟩
  exact absurd (hq.symm.trans h) (by simp)

/-- The children in the order in which they are preferred: the word that a token is has rank zero,
and the arguments follow. -/
def choice? (t : Tree S C M) (token : Text) : Nat → Option (Tree S C M)
  | 0 => (t.child? token).filter isLiteral
  | k + 1 => t.arguments[k]?

/-- The relevant children with their ranks. -/
def ranked (t : Tree S C M) (token : Text) : List (Tree S C M × Nat) :=
  ((t.child? token).filter isLiteral).toList.map (·, 0) ++ t.arguments.zipIdx 1

theorem map_fst_ranked (t : Tree S C M) (r : Reader) :
    (t.ranked r.rest.token).map Prod.fst = t.relevant r := by
  simp [ranked, relevant, Function.comp_def]

theorem mem_ranked_iff {t c : Tree S C M} {token : Text} {k : Nat} :
    (c, k) ∈ t.ranked token ↔ t.choice? token k = some c := by
  cases k with
  | zero => simp [ranked, choice?, List.mk_mem_zipIdx_iff_le_and_getElem?_sub]
  | succ k => simp [ranked, choice?, List.mk_mem_zipIdx_iff_le_and_getElem?_sub]

theorem ranked_increasing (t : Tree S C M) (token : Text) :
    (t.ranked token).Pairwise fun a b => a.2 < b.2 := by
  refine List.pairwise_append.mpr ⟨?_, ?_, ?_⟩
  · cases (t.child? token).filter isLiteral <;> simp
  · rw [← List.pairwise_map (R := (· < ·)), List.zipIdx_map_snd]
    exact List.pairwise_lt_range'
  · intro a ha b hb
    obtain ⟨c, -, rfl⟩ := List.mem_map.mp ha
    exact List.le_snd_of_mem_zipIdx hb

theorem mem_of_choice {t c : Tree S C M} {r : Reader} {k : Nat}
    (h : t.choice? r.rest.token k = some c) : c ∈ t.children ∧ c.isRoot = false := by
  refine mem_relevant (r := r) ?_
  rw [← map_fst_ranked]
  exact List.mem_map_of_mem (mem_ranked_iff.mpr h)

end Tree

/-- Steps that complete a trail from a position on, with the ranks of the choices made. Each is the
chosen child of the node before it, may be used, and stands where it begins; the last one leaves
nothing to read, and behind every other one there are a separator and at least one more byte. -/
inductive Completes {S C M : Type} (input : Text) :
    Trail S C M → Int → List Nat → List (Step S C M) → Prop
  | last {tr : Trail S C M} {start stop : Int} {k : Nat} {c : Tree S C M} {v : Option Value}
      (choice : tr.tip.choice? (Reader.rest ⟨input, start⟩).token k = some c)
      (usable : c.Usable tr.frame ⟨input, start⟩)
      (stands : Step.Stands input ⟨c, ⟨start, stop⟩, v⟩) (spent : input.length ≤ stop) :
      Completes input tr start [k] [⟨c, ⟨start, stop⟩, v⟩]
  | more {tr : Trail S C M} {start stop : Int} {k : Nat} {c : Tree S C M} {v : Option Value}
      {ks : List Nat} {sts : List (Step S C M)}
      (choice : tr.tip.choice? (Reader.rest ⟨input, start⟩).token k = some c)
      (usable : c.Usable tr.frame ⟨input, start⟩)
      (stands : Step.Stands input ⟨c, ⟨start, stop⟩, v⟩)
      (spaced : Span.get? ⟨stop, stop + 1⟩ input = some [separator])
      (further : stop + 1 < input.length)
      (rest : Completes input (tr.snoc ⟨c, ⟨start, stop⟩, v⟩) (stop + 1) ks sts) :
      Completes input tr start (k :: ks) (⟨c, ⟨start, stop⟩, v⟩ :: sts)


theorem Reader.atBoundary_of_separator {r : Reader}
    (h : Span.get? ⟨r.cursor, r.cursor + 1⟩ r.input = some [separator]) : r.atBoundary = true := by
  have hone : r.cursor + 1 - r.cursor = 1 := by omega
  simp only [Span.get?, Text.slice?, Span.length, hone] at h
  split at h
  · rename_i hin
    have hn : ¬ r.cursor < 0 := by omega
    have hget : r.input[r.cursor.toNat]? = some separator := by
      have hhead := congrArg List.head? (Option.some.inj h)
      simpa [List.head?_take, List.head?_drop] using hhead
    simp [atBoundary, peek, hn, hget]
  · simp at h

namespace Completes

variable {S C M : Type} {input : Text} {tr : Trail S C M} {start : Int} {k : Nat} {ks : List Nat}
  {sts : List (Step S C M)} {c : Tree S C M}

/-- The steps come to the end of the input. -/
theorem spent (h : Completes input tr start ks sts) : input.length ≤ (tr.append sts).stop := by
  induction h with
  | last _ _ _ hspent => simpa using hspent
  | more _ _ _ _ _ _ ih => simpa using ih

/-- The ways that begin with the child of one rank. -/
theorem head_iff {ks : List Nat} {sts : List (Step S C M)} :
    Completes input tr start ks sts ∧ ks.head? = some k ↔
      ∃ ks', ks = k :: ks' ∧ Completes input tr start (k :: ks') sts := by
  constructor
  · rintro ⟨h, hhead⟩
    obtain ⟨ks', rfl⟩ := List.head?_eq_some_iff.mp hhead
    exact ⟨ks', rfl, h⟩
  · rintro ⟨ks', rfl, h⟩
    exact ⟨h, rfl⟩

/-- The first step is that of one of the ranked children. -/
theorem head_ranked (h : Completes input tr start ks sts) :
    ∃ c ∈ tr.tip.ranked (Reader.rest ⟨input, start⟩).token, ks.head? = some c.2 := by
  cases h with
  | last hchoice | more hchoice => exact ⟨(_, _), Tree.mem_ranked_iff.mpr hchoice, rfl⟩

/-- The first step is that of the child with the first rank. Either it is the only one, or the rest
goes on behind the separator. -/
theorem cons_inv (h : Completes input tr start (k :: ks) sts)
    (hk : tr.tip.choice? (Reader.rest ⟨input, start⟩).token k = some c) :
    c.Usable tr.frame ⟨input, start⟩ ∧ ∃ stop v, Step.Stands input ⟨c, ⟨start, stop⟩, v⟩ ∧
      ((ks = [] ∧ sts = [⟨c, ⟨start, stop⟩, v⟩] ∧ input.length ≤ stop) ∨
        ∃ sts', sts = ⟨c, ⟨start, stop⟩, v⟩ :: sts' ∧
          Span.get? ⟨stop, stop + 1⟩ input = some [separator] ∧ stop + 1 < input.length ∧
          Completes input (tr.snoc ⟨c, ⟨start, stop⟩, v⟩) (stop + 1) ks sts') := by
  cases h with
  | last hchoice husable hstands hspent =>
    obtain rfl := Option.some.inj (hchoice.symm.trans hk)
    exact ⟨husable, _, _, hstands, .inl ⟨rfl, rfl, hspent⟩⟩
  | more hchoice husable hstands hspaced hfurther hrest =>
    obtain rfl := Option.some.inj (hchoice.symm.trans hk)
    exact ⟨husable, _, _, hstands, .inr ⟨_, rfl, hspaced, hfurther, hrest⟩⟩

/-- Where the child of the first rank is known to stand, only what follows is open. -/
theorem cons_iff (ks : List Nat) (sts : List (Step S C M)) {stop : Int} {v : Option Value}
    (hk : tr.tip.choice? (Reader.rest ⟨input, start⟩).token k = some c)
    (hu : c.Usable tr.frame ⟨input, start⟩) (hst : Step.Stands input ⟨c, ⟨start, stop⟩, v⟩) :
    Completes input tr start (k :: ks) sts ↔
      (ks = [] ∧ sts = [⟨c, ⟨start, stop⟩, v⟩] ∧ input.length ≤ stop) ∨
        ∃ sts', sts = ⟨c, ⟨start, stop⟩, v⟩ :: sts' ∧
          Span.get? ⟨stop, stop + 1⟩ input = some [separator] ∧ stop + 1 < input.length ∧
          Completes input (tr.snoc ⟨c, ⟨start, stop⟩, v⟩) (stop + 1) ks sts' := by
  constructor
  · intro h
    obtain ⟨-, stop', v', hst', hrest⟩ := h.cons_inv hk
    obtain ⟨rfl, rfl⟩ := hst.unique hst'
    exact hrest
  · rintro (⟨rfl, rfl, hspent⟩ | ⟨sts', rfl, hspaced, hfurther, hrest⟩)
    · exact .last hk hu hst hspent
    · exact .more hk hu hst hspaced hfurther hrest

end Completes

/-- The first of a family of steps with ranks: no other ranks are smaller, and no other steps have
the same ranks. -/
def First {S C M : Type} (D : List Nat → List (Step S C M) → Prop) (ks : List Nat)
    (sts : List (Step S C M)) : Prop :=
  D ks sts ∧ ∀ ks' sts', D ks' sts' → ks < ks' ∨ (ks' = ks ∧ sts' = sts)

/-- The parse that has come to the end of the input along a trail. -/
def Trail.finished {S C M : Type} (tr : Trail S C M) (input : Text) : Parse S C M :=
  ⟨⟨tr.segment, []⟩, ⟨input, tr.stop⟩, []⟩

@[simp] theorem Trail.isDone_finished {S C M : Type} (tr : Trail S C M) (input : Text) :
    (tr.finished input).isDone = true ↔ input.length ≤ tr.stop := by
  change (!decide (tr.stop + 1 ≤ (input.length : Int))) = true ↔ _
  simp only [Bool.not_eq_true', decide_eq_false_iff_not]
  omega

/-- What a parse says about the ways to complete a trail: it went the first of them, or there is
none and it has input left over. -/
inductive Settles {S C M : Type} (input : Text) (tr : Trail S C M)
    (D : List Nat → List (Step S C M) → Prop) : Parse S C M → Prop
  | first {ks : List Nat} {sts : List (Step S C M)} (first : First D ks sts)
      (spent : input.length ≤ (tr.append sts).stop) :
      Settles input tr D ((tr.append sts).finished input)
  | none {p : Parse S C M} (none : ∀ ks sts, ¬ D ks sts) (left : p.isDone = false) :
      Settles input tr D p

/-- What several parses say about the ways to complete a trail: those that came to the end met no
error, the first one of them went the first way, and without any there is no way. -/
structure Covers {S C M : Type} (input : Text) (tr : Trail S C M)
    (D : List Nat → List (Step S C M) → Prop) (ps : List (Parse S C M)) : Prop where
  clean : ∀ p ∈ ps, p.isDone = true → p.isClean = true
  first : ∀ p, ps.find? Parse.isDone = some p →
    ∃ ks sts, First D ks sts ∧ p = (tr.append sts).finished input
  none : ps.find? Parse.isDone = none → ∀ ks sts, ¬ D ks sts

section Ways

variable {S C M : Type} {input : Text} {tr : Trail S C M} {k : Nat} {st : Step S C M}
  {D D' : List Nat → List (Step S C M) → Prop} {p : Parse S C M} {ps ps' : List (Parse S C M)}

/-- Behind a first step the ways are those of the longer trail. -/
theorem Settles.cons (h : Settles input (tr.snoc st) D p)
    (hD : ∀ ks sts, D' ks sts ↔ ∃ ks' sts', ks = k :: ks' ∧ sts = st :: sts' ∧ D ks' sts') :
    Settles input tr D' p := by
  cases h with
  | @first ks sts hfirst hspent =>
    rw [← Trail.append_cons] at hspent ⊢
    have hd : D' (k :: ks) (st :: sts) := (hD _ _).mpr ⟨ks, sts, rfl, rfl, hfirst.1⟩
    refine .first ⟨hd, ?_⟩ hspent
    intro _ _ h'
    obtain ⟨ks', sts', rfl, rfl, hd⟩ := (hD _ _).mp h'
    rcases hfirst.2 ks' sts' hd with hlt | ⟨rfl, rfl⟩
    · exact .inl (List.cons_lt_cons_iff.mpr (.inr ⟨rfl, hlt⟩))
    · exact .inr ⟨rfl, rfl⟩
  | none hnone hleft =>
    refine .none (fun ks sts h' => ?_) hleft
    obtain ⟨ks', sts', -, -, h'⟩ := (hD ks sts).mp h'
    exact hnone ks' sts' h'

theorem Covers.nil (h : ∀ ks sts, ¬ D ks sts) : Covers input tr D [] :=
  ⟨by simp, by simp, fun _ => h⟩

theorem Settles.covers (h : Settles input tr D p) : Covers input tr D [p] := by
  cases h with
  | @first ks sts hfirst hspent =>
    have hdone := (Trail.isDone_finished (tr.append sts) input).mpr hspent
    refine ⟨?_, ?_, ?_⟩
    · intro p hp _
      obtain rfl := List.mem_singleton.mp hp
      rfl
    · intro p hp
      refine ⟨ks, sts, hfirst, ?_⟩
      simpa [hdone, eq_comm] using hp
    · intro hfind
      simp [hdone] at hfind
  | none hnone hleft => exact ⟨by simp [hleft], by simp [hleft], fun _ => hnone⟩

/-- Two lists of parses, where every way of the first comes before every way of the second. -/
theorem Covers.append (h : Covers input tr D ps) (h' : Covers input tr D' ps')
    (hlt : ∀ ks sts ks' sts', D ks sts → D' ks' sts' → ks < ks') :
    Covers input tr (fun ks sts => D ks sts ∨ D' ks sts) (ps ++ ps') := by
  refine ⟨?_, ?_, ?_⟩
  · intro p hp
    rcases List.mem_append.mp hp with hp | hp
    · exact h.clean p hp
    · exact h'.clean p hp
  · intro p hp
    rw [List.find?_append] at hp
    cases hfind : ps.find? Parse.isDone with
    | some q =>
      obtain rfl : q = p := by simpa [hfind] using hp
      obtain ⟨ks, sts, hfirst, rfl⟩ := h.first q hfind
      refine ⟨ks, sts, ⟨.inl hfirst.1, ?_⟩, rfl⟩
      rintro ks' sts' (hd | hd)
      · exact hfirst.2 ks' sts' hd
      · exact .inl (hlt _ _ _ _ hfirst.1 hd)
    | none =>
      obtain ⟨ks, sts, hfirst, rfl⟩ := h'.first p (by simpa [hfind] using hp)
      refine ⟨ks, sts, ⟨.inr hfirst.1, ?_⟩, rfl⟩
      rintro ks' sts' (hd | hd)
      · exact absurd hd (h.none hfind ks' sts')
      · exact hfirst.2 ks' sts' hd
  · intro hfind ks sts
    rw [List.find?_append, Option.or_eq_none_iff] at hfind
    rintro (hd | hd)
    · exact h.none hfind.1 ks sts hd
    · exact h'.none hfind.2 ks sts hd

theorem Covers.congr (h : Covers input tr D ps) (hD : ∀ ks sts, D' ks sts ↔ D ks sts) :
    Covers input tr D' ps := by
  have hfun : D' = D := funext fun ks => funext fun sts => propext (hD ks sts)
  rwa [hfun]

end Ways

namespace Parse

variable {S C M : Type}

theorem better_of_done {p q : Parse S C M} (hp : p.isDone = false) (hq : q.isDone = true) :
    q.better p = true := by
  simp [better, hp, hq]

theorem not_better {p q : Parse S C M} (hp : p.isDone = true) (hc : p.isClean = true) :
    q.better p = false := by
  unfold better
  cases hq : q.isDone <;> simp [hp, hc]

/-- As long as the parses that came to the end met no errors, the first of them is the best. -/
theorem best_eq_of_find {p q : Parse S C M} {ps : List (Parse S C M)}
    (hclean : ∀ p' ∈ p :: ps, p'.isDone = true → p'.isClean = true)
    (h : (p :: ps).find? isDone = some q) : p.best ps = q := by
  induction ps generalizing p with
  | nil =>
    have hq := List.mem_of_find?_eq_some h
    obtain rfl : q = p := by simpa using hq
    rfl
  | cons p' ps ih =>
    obtain ⟨hc, hcs⟩ := List.forall_mem_cons.mp hclean
    obtain ⟨hc', hcs⟩ := List.forall_mem_cons.mp hcs
    rw [best, List.foldl_cons]
    cases hp : p.isDone with
    | true =>
      rw [not_better hp (hc hp)]
      exact ih (List.forall_mem_cons.mpr ⟨hc, hcs⟩) (by simpa [hp] using h)
    | false =>
      have hrest : (p' :: ps).find? isDone = some q := by simpa [hp] using h
      cases hp' : p'.isDone with
      | true =>
        rw [better_of_done hp hp']
        exact ih (List.forall_mem_cons.mpr ⟨hc', hcs⟩) hrest
      | false =>
        -- Neither came to the end, so either may go on against the others.
        have hfind : ∀ b : Parse S C M, b.isDone = false → (b :: ps).find? isDone = some q := by
          intro b hb
          simpa [hb, hp'] using hrest
        split
        · exact ih (List.forall_mem_cons.mpr ⟨hc', hcs⟩) (hfind p' hp')
        · exact ih (List.forall_mem_cons.mpr ⟨hc, hcs⟩) (hfind p hp)

end Parse

/-- Where a way begins with a child, trying the child there succeeds. -/
theorem Completes.attempt {S C M : Type} {tr : Trail S C M} {c : Tree S C M} {r : Reader} {k : Nat}
    {ks : List Nat} {sts : List (Step S C M)} (h : Completes r.input tr r.cursor (k :: ks) sts)
    (hk : tr.tip.choice? r.rest.token k = some c) (h0 : 0 ≤ r.cursor) (hp : tr.position ≤ tr.stop)
    (hs : tr.stop ≤ r.cursor) : ∃ s' n, c.attempt r tr.segment = .ok (s', n) := by
  obtain ⟨-, stop, v, hst, hrest⟩ := h.cons_inv hk
  have hle := hst.start_le_stop
  dsimp only at hle
  obtain ⟨n, rfl⟩ : ∃ n : Nat, stop = r.cursor + n := ⟨(stop - r.cursor).toNat, by omega⟩
  refine ⟨_, n, (Trail.attempt_iff h0 hp hs (Tree.mem_of_choice hk).2).mpr ⟨v, hst, ?_, rfl⟩⟩
  rcases hrest with ⟨-, -, hspent⟩ | ⟨sts', -, hspaced, -, -⟩
  · have hspent' : ¬ r.cursor + n + 1 ≤ r.input.length := by omega
    simp [Reader.atBoundary, Reader.canRead, hspent']
  · exact Reader.atBoundary_of_separator (r := r.advance n) hspaced

/-- The best of several parses goes the first way to complete the trail, if there is any. -/
theorem Covers.best {S C M : Type} {input : Text} {tr : Trail S C M} {start : Int}
    {p : Parse S C M} {ps : List (Parse S C M)}
    (h : Covers input tr (Completes input tr start) (p :: ps)) :
    Settles input tr (Completes input tr start) (p.best ps) := by
  cases hfind : (p :: ps).find? Parse.isDone with
  | some q =>
    obtain ⟨ks, sts, hfirst, rfl⟩ := h.first q hfind
    rw [Parse.best_eq_of_find h.clean hfind]
    exact .first hfirst hfirst.1.spent
  | none =>
    refine .none (h.none hfind) ?_
    simpa using List.find?_eq_none.mp hfind _ (p.best_mem ps)

/-- The parses that a trial has to offer. -/
def Trial.parses {S C M : Type} : Trial S C M → List (Parse S C M)
  | skipped | failed _ _ => []
  | decided p | candidate p => [p]

namespace Grammar

variable {S C M : Type}

/-- The parse of what follows a child goes the first way to complete the trail that comes to it. -/
def SettlesBelow (g : Grammar S C M) (c : Tree S C M) (r : Reader) : Prop :=
  ∀ tr : Trail S C M, tr.tip = c → tr.position ≤ tr.stop → tr.stop ≤ r.cursor →
    ∃ p, g.parseAt c r tr.segment = .ok p ∧
      Settles r.input tr (Completes r.input tr r.cursor) p

/-- Behind a child that something can follow, the ways are those of the longer trail. -/
theorem settles_more {tr : Trail S C M} {c : Tree S C M} {r : Reader} {k n : Nat} {v : Option Value}
    {p : Parse S C M} (hk : tr.tip.choice? r.rest.token k = some c) (h0 : 0 ≤ r.cursor)
    (hu : c.Usable tr.frame r) (hst : Step.Stands r.input ⟨c, ⟨r.cursor, r.cursor + n⟩, v⟩)
    (hb : (r.advance n).atBoundary = true) (hmore : (r.advance n).canRead 2 = true)
    (h : Settles r.input (tr.snoc ⟨c, ⟨r.cursor, r.cursor + n⟩, v⟩)
      (Completes r.input (tr.snoc ⟨c, ⟨r.cursor, r.cursor + n⟩, v⟩) (r.cursor + n + 1)) p) :
    Settles r.input tr
      (fun ks sts => Completes r.input tr r.cursor ks sts ∧ ks.head? = some k) p := by
  have h0' : 0 ≤ (r.advance n).cursor := by rw [Reader.advance_cursor]; omega
  have hspaced := Reader.separator_ahead h0' hb (canRead_of_le (by decide) hmore)
  have hlength := of_decide_eq_true hmore
  rw [Reader.advance_cursor, Reader.advance_input] at hspaced hlength
  refine h.cons (k := k) fun ks sts => ?_
  rw [Completes.head_iff]
  constructor
  · rintro ⟨ks', rfl, hd⟩
    rcases (Completes.cons_iff ks' sts hk hu hst).mp hd with
      ⟨-, -, hspent⟩ | ⟨sts', rfl, -, -, hrest⟩
    · omega
    · exact ⟨ks', sts', rfl, rfl, hrest⟩
  · rintro ⟨ks', sts', rfl, rfl, hrest⟩
    exact ⟨ks', rfl, (Completes.cons_iff ks' _ hk hu hst).mpr
      (.inr ⟨sts', rfl, hspaced, by omega, hrest⟩)⟩

/-- A child that nothing can follow completes the trail, or leaves a separator behind. -/
theorem settles_last {tr : Trail S C M} {c : Tree S C M} {r : Reader} {k n : Nat} {v : Option Value}
    (hk : tr.tip.choice? r.rest.token k = some c) (hu : c.Usable tr.frame r)
    (hst : Step.Stands r.input ⟨c, ⟨r.cursor, r.cursor + n⟩, v⟩)
    (hlast : ¬ (r.advance n).canRead 2 = true) :
    Settles r.input tr
      (fun ks sts => Completes r.input tr r.cursor ks sts ∧ ks.head? = some k)
      ((tr.snoc ⟨c, ⟨r.cursor, r.cursor + n⟩, v⟩).finished r.input) := by
  have hlength : ¬ r.cursor + n + 2 ≤ r.input.length := fun h => hlast (decide_eq_true h)
  have hnone : ¬ r.cursor + n + 1 < r.input.length := by omega
  by_cases hspent : r.input.length ≤ r.cursor + n
  · rw [← Trail.append_nil (tr.snoc _), ← Trail.append_cons]
    have hone := (Completes.cons_iff [] _ hk hu hst).mpr (.inl ⟨rfl, rfl, hspent⟩)
    refine .first ⟨Completes.head_iff.mpr ⟨[], rfl, hone⟩, ?_⟩ (by simpa using hspent)
    intro ks sts hd
    obtain ⟨ks', rfl, h⟩ := Completes.head_iff.mp hd
    rcases (Completes.cons_iff ks' sts hk hu hst).mp h with
      ⟨rfl, rfl, -⟩ | ⟨sts', -, -, hfurther, -⟩
    · exact .inr ⟨rfl, rfl⟩
    · exact absurd hfurther hnone
  · refine .none (fun ks sts hd => ?_) ?_
    · obtain ⟨ks', rfl, h⟩ := Completes.head_iff.mp hd
      rcases (Completes.cons_iff ks' sts hk hu hst).mp h with
        ⟨-, -, hspent'⟩ | ⟨sts', -, -, hfurther, -⟩
      · exact hspent hspent'
      · exact hnone hfurther
    · rw [← Bool.not_eq_true, Trail.isDone_finished, Trail.stop_snoc]
      exact hspent

/-- Behind a child that stands where it was tried. -/
theorem onward_settles {g : Grammar S C M} {tr : Trail S C M} {c : Tree S C M} {r : Reader}
    {k n : Nat} {v : Option Value} (hc : c.redirect = none)
    (hk : tr.tip.choice? r.rest.token k = some c) (h0 : 0 ≤ r.cursor) (hu : c.Usable tr.frame r)
    (hp : tr.position ≤ r.cursor)
    (hst : Step.Stands r.input ⟨c, ⟨r.cursor, r.cursor + n⟩, v⟩)
    (hb : (r.advance n).atBoundary = true)
    (ih : (r.advance n).canRead 2 = true → g.SettlesBelow c ((r.advance n).advance 1)) :
    ∃ p, g.onward c tr.source (r.advance n)
        (tr.snoc ⟨c, ⟨r.cursor, r.cursor + n⟩, v⟩).segment = .ok (.candidate p) ∧
      Settles r.input tr
        (fun ks sts => Completes r.input tr r.cursor ks sts ∧ ks.head? = some k) p := by
  rw [onward, hc]
  by_cases hmore : (r.advance n).canRead 2 = true
  · obtain ⟨p, hparse, hsettles⟩ := ih hmore (tr.snoc ⟨c, ⟨r.cursor, r.cursor + n⟩, v⟩)
      (by simp) (by rw [Trail.position_snoc, Trail.stop_snoc]; dsimp only; omega)
      (by rw [Trail.stop_snoc]; simp only [Reader.advance_cursor]; omega)
    exact ⟨p, by rw [if_pos hmore, hparse]; rfl, settles_more hk h0 hu hst hb hmore hsettles⟩
  · refine ⟨_, ?_, settles_last hk hu hst hmore⟩
    rw [if_neg hmore]
    simp [Trail.finished, Reader.advance]

/-- Trying a child covers the ways that begin with it. -/
theorem trial_covers {g : Grammar S C M} {tr : Trail S C M} {c : Tree S C M} {r : Reader} {k : Nat}
    (hc : c.Plain) (hk : tr.tip.choice? r.rest.token k = some c) (h0 : 0 ≤ r.cursor)
    (hp : tr.position ≤ tr.stop) (hs : tr.stop ≤ r.cursor)
    (ih : ∀ n, (r.advance n).canRead 2 = true → g.SettlesBelow c ((r.advance n).advance 1)) :
    ∃ tried, g.trial c r tr.segment = .ok tried ∧ (∀ p, tried ≠ .decided p) ∧
      Covers r.input tr (fun ks sts => Completes r.input tr r.cursor ks sts ∧ ks.head? = some k)
        tried.parses := by
  obtain ⟨b, hb⟩ := hc.eligible tr.frame r
  unfold trial
  rw [show tr.segment.frame = tr.frame from rfl, hb]
  cases b with
  | false =>
    refine ⟨.skipped, rfl, by simp, .nil fun ks sts hd => ?_⟩
    obtain ⟨ks', -, h⟩ := Completes.head_iff.mp hd
    have husable := Tree.eligible_iff.mpr (h.cons_inv hk).1
    exact absurd (hb.symm.trans husable) (by simp)
  | true =>
    cases hm : c.attempt r tr.segment with
    | error e =>
      refine ⟨.failed c.id e, rfl, by simp, .nil fun ks sts hd => ?_⟩
      obtain ⟨ks', -, h⟩ := Completes.head_iff.mp hd
      obtain ⟨s', n, hm'⟩ := h.attempt hk h0 hp hs
      exact absurd (hm.symm.trans hm') (by simp)
    | ok matched =>
      obtain ⟨s', n⟩ := matched
      obtain ⟨v, hst, hbound, rfl⟩ :=
        (Trail.attempt_iff h0 hp hs (Tree.mem_of_choice hk).2).mp hm
      obtain ⟨p, hon, hsettles⟩ :=
        onward_settles hc.direct hk h0 (Tree.eligible_iff.mp hb) (hp.trans hs) hst hbound (ih n)
      exact ⟨.candidate p, hon, by simp, hsettles.covers⟩

/-- Trying children in the order of their ranks covers the ways that begin with one of them. -/
theorem explore_covers {g : Grammar S C M} {tr : Trail S C M} {r : Reader} (h0 : 0 ≤ r.cursor)
    (hp : tr.position ≤ tr.stop) (hs : tr.stop ≤ r.cursor) (cs : List (Tree S C M × Nat))
    (hk : ∀ c ∈ cs, tr.tip.choice? r.rest.token c.2 = some c.1)
    (hsorted : cs.Pairwise fun a b => a.2 < b.2) (hplain : ∀ c ∈ cs, c.1.Plain)
    (ih : ∀ c ∈ cs, ∀ n, (r.advance n).canRead 2 = true →
      g.SettlesBelow c.1 ((r.advance n).advance 1)) :
    ∃ es ps, g.explore (cs.map Prod.fst) r tr.segment = .ok (.pending es ps) ∧
      Covers r.input tr (fun ks sts => Completes r.input tr r.cursor ks sts ∧
        ∃ c ∈ cs, ks.head? = some c.2) ps := by
  induction cs with
  | nil => exact ⟨[], [], explore_nil g r _, .nil (by simp)⟩
  | cons c cs ihcs =>
    obtain ⟨hlt, hsorted⟩ := List.pairwise_cons.mp hsorted
    obtain ⟨hkc, hkcs⟩ := List.forall_mem_cons.mp hk
    obtain ⟨hc, hcs⟩ := List.forall_mem_cons.mp hplain
    obtain ⟨ihc, ihcs'⟩ := List.forall_mem_cons.mp ih
    obtain ⟨tried, htried, hnot, hcovers⟩ := trial_covers hc hkc h0 hp hs ihc
    obtain ⟨es, ps, hexplore, hrest⟩ := ihcs hkcs hsorted hcs ihcs'
    have hbefore : ∀ ks sts ks' sts',
        Completes r.input tr r.cursor ks sts ∧ ks.head? = some c.2 →
        (Completes r.input tr r.cursor ks' sts' ∧ ∃ d ∈ cs, ks'.head? = some d.2) → ks < ks' := by
      rintro ks sts ks' sts' ⟨-, hhead⟩ ⟨-, d, hd, hhead'⟩
      obtain ⟨tail, rfl⟩ := List.head?_eq_some_iff.mp hhead
      obtain ⟨tail', rfl⟩ := List.head?_eq_some_iff.mp hhead'
      exact List.cons_lt_cons_iff.mpr (.inl (hlt d hd))
    have hall : Covers r.input tr (fun ks sts => Completes r.input tr r.cursor ks sts ∧
        ∃ d ∈ c :: cs, ks.head? = some d.2) (tried.parses ++ ps) :=
      (hcovers.append hrest hbefore).congr fun ks sts => by
        rw [List.exists_mem_cons_iff, and_or_left]
    rw [List.map_cons, explore_cons, htried, hexplore]
    cases tried with
    | skipped => exact ⟨es, ps, rfl, hall⟩
    | failed id e => exact ⟨(id, e) :: es, ps, rfl, hall⟩
    | decided p => exact absurd rfl (hnot p)
    | candidate p => exact ⟨es, p :: ps, rfl, hall⟩

theorem parseAt_settles {g : Grammar S C M} (hg : g.Plain) {r : Reader} {t : Tree S C M}
    (ht : g.root.Has t) (h0 : 0 ≤ r.cursor) (tr : Trail S C M) (htip : tr.tip = t)
    (hp : tr.position ≤ tr.stop) (hs : tr.stop ≤ r.cursor) :
    ∃ p, g.parseAt t r tr.segment = .ok p ∧
      (Settles r.input tr (Completes r.input tr r.cursor) p ∨
        (∀ ks sts, ¬ Completes r.input tr r.cursor ks sts) ∧ p.chain = ⟨tr.segment, []⟩ ∧
          p.reader = r) := by
  generalize hn : r.ahead = n
  -- Below a child less lies ahead, and there is something left to read.
  induction n using Nat.strongRecOn generalizing r t tr with
  | ind n ih =>
    subst hn htip
    have hbelow : ∀ c ∈ tr.tip.ranked r.rest.token, ∀ n, (r.advance n).canRead 2 = true →
        g.SettlesBelow c.1 ((r.advance n).advance 1) := by
      intro c hc n hmore tr' htip' hp' hs'
      have hlt := Reader.ahead_advance_lt hmore (by decide)
      rw [← Reader.advance_advance] at hlt
      have hchild := ht.child (Tree.mem_of_choice (Tree.mem_ranked_iff.mp hc)).1
      obtain ⟨p, hparse, hp | ⟨hnone, -, hreader⟩⟩ := ih _ hlt hchild
        (by simp only [Reader.advance_cursor]; omega) tr' htip' hp' hs' rfl
      · exact ⟨p, hparse, hp⟩
      · have hone : ((r.advance n).advance 1).canRead 1 = true := by
          have hmore := of_decide_eq_true hmore
          refine decide_eq_true ?_
          simp only [Reader.advance_cursor, Reader.advance_input] at hmore ⊢
          omega
        exact ⟨p, hparse, .none hnone (by rw [Parse.isDone, hreader, hone]; rfl)⟩
    obtain ⟨es, ps, hexplore, hcovers⟩ := explore_covers h0 hp hs (tr.tip.ranked r.rest.token)
      (fun c hc => Tree.mem_ranked_iff.mp hc) (tr.tip.ranked_increasing r.rest.token)
      (fun c hc => hg _ (ht.child (Tree.mem_of_choice (Tree.mem_ranked_iff.mp hc)).1)) hbelow
    have hall : Covers r.input tr (Completes r.input tr r.cursor) ps :=
      hcovers.congr fun ks sts => ⟨fun h => ⟨h, h.head_ranked⟩, And.left⟩
    rw [parseAt_eq, ← Tree.map_fst_ranked, hexplore]
    cases ps with
    | nil => exact ⟨_, rfl, .inr ⟨hall.none rfl, rfl, rfl⟩⟩
    | cons p ps => exact ⟨_, rfl, .inl hall.best⟩

/-- No way to complete a trail passes the end of the input if no type does. -/
theorem stop_le_of_completes {g : Grammar S C M} (hg : g.StaysInside) {input : Text}
    {tr : Trail S C M} {start : Int} {ks : List Nat} {sts : List (Step S C M)}
    (h : Completes input tr start ks sts) (ht : g.HasNode tr.tip) (h0 : 0 ≤ start)
    (hl : start ≤ input.length) : (tr.append sts).stop ≤ input.length := by
  induction h with
  | last hchoice _ hst _ =>
    have hc := ht.child (Tree.mem_of_choice hchoice).1
    simpa using hst.stop_le h0 hl (hg _ hc)
  | more hchoice _ hst _ hfurther _ ih =>
    have hc := ht.child (Tree.mem_of_choice hchoice).1
    have hle := hst.start_le_stop
    rw [Trail.append_cons]
    dsimp only at hle
    exact ih (by simpa using hc) (by omega) (by omega)

/-- Where a parse begins: nothing has been matched below the root. -/
def outset (g : Grammar S C M) (source : S) (r : Reader) : Trail S C M :=
  .start source g.root.id g.root r.cursor

/-- Without redirects, the parse of an input is its first complete derivation: the frame is that of
its steps, the reader is at the end, and there are no errors. If there is no complete derivation,
then something is left to read, or nothing was there to read and nothing was matched. -/
theorem parse_first (g : Grammar S C M) (source : S) (r : Reader) (hg : g.Plain)
    (h0 : 0 ≤ r.cursor) (hl : r.cursor ≤ r.input.length) :
    ∃ p, g.parse source r = .ok p ∧
      ((∃ ks sts, First (Completes r.input (g.outset source r) r.cursor) ks sts ∧
          p = ⟨⟨((g.outset source r).append sts).segment, []⟩,
            ⟨r.input, ((g.outset source r).append sts).stop⟩, []⟩ ∧
          p.reader.canRead 1 = false ∧ (g.StaysInside → p.reader.cursor = r.input.length)) ∨
        (∀ ks sts, ¬ Completes r.input (g.outset source r) r.cursor ks sts) ∧
          (p.reader.canRead 1 = true ∨
            r.canRead 1 = false ∧ p.chain = ⟨(g.outset source r).segment, []⟩ ∧ p.reader = r)) := by
  obtain ⟨p, hp, h⟩ := parseAt_settles hg .top h0 (g.outset source r) rfl (Int.le_refl _)
    (Int.le_refl _)
  refine ⟨p, hp, ?_⟩
  rcases h with h | ⟨hnone, hchain, hreader⟩
  · cases h with
    | @first ks sts hfirst hspent =>
      refine .inl ⟨ks, sts, hfirst, rfl, ?_, fun hin => ?_⟩
      · simpa [Parse.isDone] using (Trail.isDone_finished _ r.input).mpr hspent
      · exact Int.le_antisymm (stop_le_of_completes hin hfirst.1 (.inl .top) h0 hl) hspent
    | none hnone hleft => exact .inr ⟨hnone, .inl (by simpa [Parse.isDone] using hleft)⟩
  · refine .inr ⟨hnone, ?_⟩
    cases hread : r.canRead 1 with
    | true => exact .inl (by rw [hreader, hread])
    | false => exact .inr ⟨rfl, hchain, hreader⟩

/-- What is to be said stands behind `say`, or without it takes up the whole input. -/
def menu : Grammar Unit Unit Unit :=
  ⟨.node [0] (.ofKind .root)
    [.node [1] ⟨.argument (text "all") (BuiltIn.string .greedy).toArgumentType none, some (), none,
        none, none, none, false⟩ [],
      .node [2] (.ofKind (.literal (text "say"))) [echoWord]], .bare⟩

theorem menu_plain : menu.Plain := by
  have hnode : ∀ t, menu.root.Has t → t ∈ menu.root :: echoWord :: menu.root.children := by
    intro t h
    induction h with
    | top => exact List.mem_cons_self
    | child h hc ih =>
      simp only [menu, Tree.children, List.mem_cons, List.not_mem_nil, or_false] at ih hc ⊢
      rcases ih with rfl | rfl | rfl | rfl <;> simp [echoWord] at hc ⊢ <;> grind
  intro t ht
  have h := hnode t ht
  simp only [menu, Tree.children, List.mem_cons, List.not_mem_nil, or_false] at h
  rcases h with rfl | rfl | rfl | rfl <;> exact .of_unconditional rfl rfl rfl

/-- Both commands read the whole input, and the one with the word is taken. -/
theorem parse_first_menu :
    ∃ p ks sts, menu.parse () (.ofText (text "say hi")) = .ok p ∧
      First (Completes (text "say hi") (menu.outset () (.ofText (text "say hi"))) 0) ks sts ∧
      p.chain = ⟨((menu.outset () (.ofText (text "say hi"))).append sts).segment, []⟩ ∧
      p.chain.first.frame.matched.map Match.tag =
        [.literal (text "say"), .argument (text "what")] := by
  have h : (menu.parse () (.ofText (text "say hi"))).map (fun p => (p.reader.canRead 1,
      p.chain.first.frame.matched.map Match.tag)) =
      .ok (false, [.literal (text "say"), .argument (text "what")]) := by
    cbv
  obtain ⟨p, hp, hdone⟩ := map_eq_ok_iff.mp h
  obtain ⟨hdone, htags⟩ := Prod.mk.inj hdone
  obtain ⟨p', hp', hfirst | ⟨-, hleft⟩⟩ := parse_first menu () (.ofText (text "say hi")) menu_plain
    (by decide) (by decide)
  · obtain rfl := Except.ok.inj (hp.symm.trans hp')
    obtain ⟨ks, sts, hfirst, heq, -⟩ := hfirst
    exact ⟨p, ks, sts, hp, hfirst, by rw [heq], htags⟩
  · obtain rfl := Except.ok.inj (hp.symm.trans hp')
    rcases hleft with hleft | ⟨hnothing, -⟩
    · exact absurd (hdone.symm.trans hleft) (by simp)
    · exact absurd hnothing (by decide)

end Grammar

end CommandTree
