import CommandTree.Proofs.Priority
import Mathlib

/-!
Which of the parses that the children of a node yield becomes that of the node. Main statement: as
long as no child is followed through a redirect, a parse that used up the input is never given up for
one that did not; the first child that is followed so settles the matter, whatever the others yield.
-/

namespace CommandTree

/-- The child may be used, matches, and is followed through its redirect: a separator stands behind
it. -/
def Tree.Jumps {S C M : Type} (c : Tree S C M) (r : Reader) (s : Segment S C M) : Prop :=
  ∃ s' n, c.Usable s.frame r ∧ c.attempt r s = .ok (s', n) ∧ c.redirect.isSome = true ∧
    (r.advance n).canRead 1 = true

namespace Parse

variable {S C M : Type} {p q : Parse S C M}

/-- Only a parse that used up the input is better than one that did. -/
theorem isDone_of_better (hp : p.isDone = true) (h : q.better p = true) : q.isDone = true := by
  unfold better at h
  split at h
  · rename_i hsame
    exact hsame.trans hp
  · exact h

/-- If some of several parses used up the input, then the best of them did. -/
theorem isDone_best {ps : List (Parse S C M)} (h : ∃ q ∈ p :: ps, q.isDone = true) :
    (p.best ps).isDone = true := by
  unfold best
  induction ps generalizing p with
  | nil => simpa using h
  | cons q qs ih =>
    rw [List.foldl_cons]
    refine ih ?_
    obtain ⟨d, hd, hdone⟩ := h
    by_cases hb : q.better p = true
    · rw [if_pos hb]
      rcases List.mem_cons.mp hd with rfl | hd
      · exact ⟨q, List.mem_cons_self, isDone_of_better hdone hb⟩
      · exact ⟨d, hd, hdone⟩
    · rw [if_neg hb]
      rcases List.mem_cons.mp hd with rfl | hd
      · exact ⟨d, List.mem_cons_self, hdone⟩
      rcases List.mem_cons.mp hd with rfl | hd
      · -- It is not better, so the one before it used up the input as well.
        refine ⟨p, List.mem_cons_self, ?_⟩
        by_contra hp
        exact hb (better_of_done ((Bool.not_eq_true _).mp hp) hdone)
      · exact ⟨d, List.mem_cons_of_mem p hd, hdone⟩

end Parse

namespace Grammar

variable {S C M : Type} {g : Grammar S C M} {c : Tree S C M} {r : Reader} {s : Segment S C M}

/-- A parse that a child yields where it may be used and matches: the child is its last node, or the
parse goes on below the child or behind its redirect. -/
inductive Yields (g : Grammar S C M) (r : Reader) (s : Segment S C M) (c : Tree S C M) :
    Parse S C M → Prop
  | last {s' : Segment S C M} {n : Nat} (usable : c.Usable s.frame r)
      (matched : c.attempt r s = .ok (s', n))
      (spent : (r.advance n).canRead (if c.redirect.isSome then 1 else 2) = false) :
      Yields g r s c ⟨⟨s', []⟩, r.advance n, []⟩
  | below {s' : Segment S C M} {n : Nat} {p : Parse S C M} (usable : c.Usable s.frame r)
      (matched : c.attempt r s = .ok (s', n)) (direct : c.redirect = none)
      (more : (r.advance n).canRead 2 = true)
      (parsed : g.parseAt c (r.advance (n + 1)) s' = .ok p) : Yields g r s c p
  | redirect {s' : Segment S C M} {n : Nat} {target : NodeId} {p : Parse S C M}
      (usable : c.Usable s.frame r) (matched : c.attempt r s = .ok (s', n))
      (leads : c.redirect = some target) (more : (r.advance n).canRead 1 = true)
      (parsed : g.parseAt (g.resolve target) (r.advance (n + 1))
        (.start s.frame.source (some target) (r.advance (n + 1)).cursor) = .ok p) :
      Yields g r s c (p.under s')

/-- Trying a child that may be used and matches is going on behind it. -/
theorem trial_of_matched {s' : Segment S C M} {n : Nat} (hu : c.Usable s.frame r)
    (hm : c.attempt r s = .ok (s', n)) :
    g.trial c r s = g.onward c s.frame.source (r.advance n) s' := by
  rw [trial, Tree.eligible_iff.mpr hu, hm]

/-- A child that yields a parse is tried with that parse. -/
theorem mem_parses_of_yields {p : Parse S C M} (h : g.Yields r s c p) :
    ∃ tried, g.trial c r s = .ok tried ∧ p ∈ tried.parses := by
  cases h with
  | @last s' n usable matched spent =>
    refine ⟨.candidate _, ?_, List.mem_singleton_self _⟩
    rw [trial_of_matched usable matched, onward]
    cases hr : c.redirect <;> rw [hr] at spent <;> simp_all
  | @below s' n p usable matched direct more parsed =>
    refine ⟨.candidate p, ?_, List.mem_singleton_self _⟩
    rw [trial_of_matched usable matched, onward, direct]
    simp only [more, if_true, Reader.advance_advance, parsed]
    rfl
  | @redirect s' n target p usable matched leads more parsed =>
    refine ⟨.decided (p.under s'), ?_, List.mem_singleton_self _⟩
    rw [trial_of_matched usable matched, onward, leads]
    simp only [more, if_true, Reader.advance_advance, parsed]
    rfl

/-- A child that yields a parse may be used and matches. -/
theorem Yields.matched {p : Parse S C M} (h : g.Yields r s c p) :
    ∃ s' n, c.Usable s.frame r ∧ c.attempt r s = .ok (s', n) := by
  cases h with
  | last usable matched | below usable matched | redirect usable matched =>
    exact ⟨_, _, usable, matched⟩

/-- Whether a child that matches is followed through its redirect. -/
theorem jumps_iff {s' : Segment S C M} {n : Nat} (hu : c.Usable s.frame r)
    (hm : c.attempt r s = .ok (s', n)) :
    c.Jumps r s ↔ c.redirect.isSome = true ∧ (r.advance n).canRead 1 = true := by
  constructor
  · rintro ⟨s₁, n₁, -, hm₁, hredirect, hmore⟩
    obtain ⟨-, rfl⟩ := Prod.mk.inj (Except.ok.inj (hm.symm.trans hm₁))
    exact ⟨hredirect, hmore⟩
  · rintro ⟨hredirect, hmore⟩
    exact ⟨s', n, hu, hm, hredirect, hmore⟩

/-- What comes of going on behind a child that matches. -/
theorem onward_spec {s' : Segment S C M} {n : Nat} {tried : Trial S C M} (hu : c.Usable s.frame r)
    (hm : c.attempt r s = .ok (s', n))
    (h : g.onward c s.frame.source (r.advance n) s' = .ok tried) :
    (c.Jumps r s ↔ ∃ p, tried = .decided p) ∧ ∀ p ∈ tried.parses, g.Yields r s c p := by
  rw [jumps_iff hu hm]
  unfold onward at h
  split at h
  · rename_i target hredirect
    split at h
    · rename_i hmore
      obtain ⟨q, hq, rfl⟩ := map_eq_ok_iff.mp h
      rw [Reader.advance_advance] at hq
      refine ⟨by simp [hredirect, hmore], fun p hp => ?_⟩
      obtain rfl := List.mem_singleton.mp hp
      exact .redirect hu hm hredirect hmore hq
    · rename_i hmore
      cases h
      refine ⟨by simp [hmore], fun p hp => ?_⟩
      obtain rfl := List.mem_singleton.mp hp
      exact .last hu hm (by simpa [hredirect] using hmore)
  · rename_i hredirect
    split at h
    · rename_i hmore
      obtain ⟨q, hq, rfl⟩ := map_eq_ok_iff.mp h
      rw [Reader.advance_advance] at hq
      refine ⟨by simp [hredirect], fun p hp => ?_⟩
      obtain rfl := List.mem_singleton.mp hp
      exact .below hu hm hredirect hmore hq
    · rename_i hmore
      cases h
      refine ⟨by simp [hredirect], fun p hp => ?_⟩
      obtain rfl := List.mem_singleton.mp hp
      exact .last hu hm (by simpa [hredirect] using hmore)

/-- Trying a child shows whether it is followed through its redirect, and which parse it yields. -/
theorem trial_spec {tried : Trial S C M} (h : g.trial c r s = .ok tried) :
    (c.Jumps r s ↔ ∃ p, tried = .decided p) ∧ ∀ p, g.Yields r s c p ↔ p ∈ tried.parses := by
  have hmem : ∀ p, g.Yields r s c p → p ∈ tried.parses := fun p hp => by
    obtain ⟨tried', htried, hmem⟩ := mem_parses_of_yields hp
    obtain rfl := Except.ok.inj (htried.symm.trans h)
    exact hmem
  by_cases hmatched : ∃ s' n, c.Usable s.frame r ∧ c.attempt r s = .ok (s', n)
  · obtain ⟨s', n, hu, hm⟩ := hmatched
    rw [trial_of_matched hu hm] at h
    obtain ⟨hjumps, hyields⟩ := onward_spec hu hm h
    exact ⟨hjumps, fun p => ⟨hmem p, hyields p⟩⟩
  · have hjumps : ¬ c.Jumps r s := fun ⟨s', n, hu, hm, _⟩ => hmatched ⟨s', n, hu, hm⟩
    have hparses : tried = .skipped ∨ ∃ i e, tried = .failed i e := by
      unfold trial at h
      split at h
      · cases h
      · exact .inl (Except.ok.inj h).symm
      · rename_i hel
        split at h
        · exact .inr ⟨_, _, (Except.ok.inj h).symm⟩
        · rename_i s' n hm
          exact absurd ⟨s', n, Tree.eligible_iff.mp hel, hm⟩ hmatched
    refine ⟨iff_of_false hjumps ?_, fun p => iff_of_false (fun hp => hmatched hp.matched) ?_⟩ <;>
      rcases hparses with rfl | ⟨i, e, rfl⟩ <;> simp [Trial.parses]

/-- As long as no child is followed through a redirect, all parses that the children yield are at
hand. -/
theorem explore_pending {cs : List (Tree S C M)} {e : Exploration S C M}
    (hcs : ∀ c ∈ cs, ¬ c.Jumps r s) (h : g.explore cs r s = .ok e) :
    ∃ errors ps, e = .pending errors ps ∧ ∀ p, p ∈ ps ↔ ∃ c ∈ cs, g.Yields r s c p := by
  induction cs generalizing e with
  | nil =>
    rw [explore_nil] at h
    exact ⟨[], [], (Except.ok.inj h).symm, by simp⟩
  | cons c cs ih =>
    obtain ⟨hc, hcs⟩ := List.forall_mem_cons.mp hcs
    rw [explore_cons] at h
    split at h
    · cases h
    · rename_i p htried
      exact absurd ((trial_spec htried).1.mpr ⟨p, rfl⟩) hc
    · rename_i tried hnot htried
      obtain ⟨e', he', rfl⟩ := map_eq_ok_iff.mp h
      obtain ⟨errors, ps, rfl, hps⟩ := ih hcs he'
      have hyields := (trial_spec htried).2
      cases tried with
      | decided p => exact absurd rfl (hnot p)
      | skipped => exact ⟨errors, ps, rfl, by simp [hps, hyields, Trial.parses]⟩
      | failed i error => exact ⟨_, ps, rfl, by simp [hps, hyields, Trial.parses]⟩
      | candidate p => exact ⟨errors, p :: ps, rfl, by simp [hps, hyields, Trial.parses]⟩

/-- The first child that is followed through its redirect decides. -/
theorem explore_decided {before after : List (Tree S C M)} {e : Exploration S C M}
    (hbefore : ∀ d ∈ before, ¬ d.Jumps r s) (hc : c.Jumps r s)
    (h : g.explore (before ++ c :: after) r s = .ok e) :
    ∃ p, e = .decided p ∧ g.Yields r s c p := by
  induction before generalizing e with
  | nil =>
    rw [List.nil_append, explore_cons] at h
    split at h
    · cases h
    · rename_i p htried
      exact ⟨p, (Except.ok.inj h).symm, ((trial_spec htried).2 p).mpr (List.mem_singleton_self p)⟩
    · rename_i tried hnot htried
      obtain ⟨p, rfl⟩ := (trial_spec htried).1.mp hc
      exact absurd rfl (hnot p)
  | cons d before ih =>
    obtain ⟨hd, hbefore⟩ := List.forall_mem_cons.mp hbefore
    rw [List.cons_append, explore_cons] at h
    split at h
    · cases h
    · rename_i p htried
      exact absurd ((trial_spec htried).1.mpr ⟨p, rfl⟩) hd
    · rename_i tried hnot htried
      obtain ⟨e', he', rfl⟩ := map_eq_ok_iff.mp h
      obtain ⟨p, rfl, hp⟩ := ih hbefore he'
      cases tried with
      | decided q => exact absurd rfl (hnot q)
      | skipped | failed | candidate => exact ⟨p, rfl, hp⟩

/-- Exploring fails only where trying one of the children does. -/
theorem trial_of_explore_error {cs : List (Tree S C M)} {f : Fault}
    (h : g.explore cs r s = .error f) : ∃ c ∈ cs, g.trial c r s = .error f := by
  induction cs with
  | nil => rw [explore_nil] at h; cases h
  | cons c cs ih =>
    rw [explore_cons] at h
    split at h
    · rename_i f' htried
      obtain rfl := Except.error.inj h
      exact ⟨c, List.mem_cons_self, htried⟩
    · cases h
    · obtain ⟨d, hd, htried⟩ := ih (map_eq_error_iff.mp h)
      exact ⟨d, List.mem_cons_of_mem c hd, htried⟩

/-- The parse below a node is given up only where trying a child is. Otherwise, as long as no child is
followed through its redirect, it is a parse that one of the children yields, or that of the place
itself if there is none, and it used up the input if any of them did. The first child that is followed
through its redirect settles the matter with the parse that it yields. -/
theorem parseAt_keeps_done (g : Grammar S C M) (t : Tree S C M) (r : Reader) (s : Segment S C M) :
    (∃ f, g.parseAt t r s = .error f ∧ ∃ c ∈ t.relevant r, g.trial c r s = .error f) ∨
    ∃ p, g.parseAt t r s = .ok p ∧
      ((∀ c ∈ t.relevant r, ¬ c.Jumps r s) →
        ((∃ c ∈ t.relevant r, ∃ q, g.Yields r s c q ∧ q.isDone = true) → p.isDone = true) ∧
        ((∃ c ∈ t.relevant r, g.Yields r s c p) ∨
          (∀ c ∈ t.relevant r, ∀ q, ¬ g.Yields r s c q) ∧ p.reader = r ∧ p.chain = ⟨s, []⟩)) ∧
      ∀ before c after, t.relevant r = before ++ c :: after →
        (∀ d ∈ before, ¬ d.Jumps r s) → c.Jumps r s → g.Yields r s c p := by
  rw [parseAt_eq]
  cases he : g.explore (t.relevant r) r s with
  | error f => exact .inl ⟨f, rfl, trial_of_explore_error he⟩
  | ok e =>
    refine .inr ⟨e.conclude s r, rfl, fun hnone => ?_, fun before c after heq hbefore hc => ?_⟩
    · obtain ⟨errors, ps, rfl, hps⟩ := explore_pending hnone he
      cases ps with
      | nil =>
        have hno : ∀ c ∈ t.relevant r, ∀ q, ¬ g.Yields r s c q := fun c hc q hq =>
          List.not_mem_nil ((hps q).mpr ⟨c, hc, hq⟩)
        exact ⟨fun ⟨c, hc, q, hq, _⟩ => absurd hq (hno c hc q), .inr ⟨hno, rfl, rfl⟩⟩
      | cons q qs =>
        refine ⟨fun ⟨c, hc, q', hq', hdone⟩ => ?_, .inl ((hps _).mp (q.best_mem qs))⟩
        exact Parse.isDone_best ⟨q', (hps q').mpr ⟨c, hc, hq'⟩, hdone⟩
    · rw [heq] at he
      obtain ⟨p, rfl, hp⟩ := explore_decided hbefore hc he
      exact hp

/-- The word `go` with a greedy argument behind it. -/
def departure : Tree Unit Unit Unit :=
  .node [1] (.ofKind (.literal (text "go")))
    [.node [2] ⟨.argument (text "where") (BuiltIn.string .greedy).toArgumentType none, some (), none,
      none, none, none, false⟩ []]

/-- Beside the word `go` stands an argument that leads to a node without children. -/
def crossing : Grammar Unit Unit Unit :=
  ⟨.node [0] (.ofKind .root) [departure,
    .node [3] ⟨.argument (text "any") (BuiltIn.string .word).toArgumentType none, none, none, none,
      some [4], none, false⟩ []], .bare⟩

/-- Below the word `go` the parse of `go far` leaves nothing over. Behind the redirect it leaves `far`
over, and that is what the parse comes to. -/
theorem parseAt_redirect_leaves_over :
    ∃ c ∈ crossing.root.relevant (.ofText (text "go far")), ∃ q p,
      crossing.Yields (.ofText (text "go far")) (.start () (some [0]) 0) c q ∧ q.isDone = true ∧
      crossing.parse () (.ofText (text "go far")) = .ok p ∧ p.isDone = false := by
  have hgo : (crossing.trial departure (.ofText (text "go far")) (.start () (some [0]) 0)).map
      (fun tried => tried.parses.any Parse.isDone) = .ok true := by cbv
  have hparse : (crossing.parse () (.ofText (text "go far"))).map Parse.isDone = .ok false := by cbv
  obtain ⟨tried, htried, hany⟩ := map_eq_ok_iff.mp hgo
  obtain ⟨q, hq, hqdone⟩ := List.any_eq_true.mp hany
  obtain ⟨p, hp, hpdone⟩ := map_eq_ok_iff.mp hparse
  have hmem : departure ∈ crossing.root.relevant (.ofText (text "go far")) := List.mem_cons_self
  exact ⟨departure, hmem, q, p, ((trial_spec htried).2 q).mpr hq, hqdone, hp, hpdone⟩

end Grammar

end CommandTree
