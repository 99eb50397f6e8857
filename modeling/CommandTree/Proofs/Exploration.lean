import CommandTree.Proofs.Matching

/-!
How the parse below a node depends on its children. Each child is tried on its own, and exploring a
list of children puts the outcomes together. Whatever the parse comes to, it is either the place
where it began or was reached through one of the children.
-/

namespace CommandTree

theorem map_eq_ok_iff {ε α β : Type} {f : α → β} {x : Except ε α} {b : β} :
    x.map f = .ok b ↔ ∃ a, x = .ok a ∧ f a = b := by
  cases x <;> simp [Except.map]

theorem map_eq_error_iff {ε α β : Type} {f : α → β} {x : Except ε α} {e : ε} :
    x.map f = .error e ↔ x = .error e := by
  cases x <;> simp [Except.map]

/-- The outcome of trying one child. -/
inductive Trial (S C M : Type)
  | skipped
  | failed (id : NodeId) (error : SyntaxError)
  | decided (parse : Parse S C M)
  | candidate (parse : Parse S C M)

/-- What a trial adds to the exploration of the children behind it. -/
def Trial.addTo {S C M : Type} (e : Exploration S C M) : Trial S C M → Exploration S C M
  | skipped => e
  | failed id error => e.withError id error
  | decided p => .decided p
  | candidate p => e.withParse p

/-- The parses that an exploration has to offer. -/
def Exploration.parses {S C M : Type} : Exploration S C M → List (Parse S C M)
  | decided p => [p]
  | pending _ ps => ps

namespace Parse

variable {S C M : Type}

theorem best_mem (p : Parse S C M) (ps : List (Parse S C M)) : p.best ps ∈ p :: ps := by
  unfold best
  induction ps generalizing p with
  | nil => simp
  | cons q qs ih =>
    rw [List.foldl_cons]
    by_cases hb : q.better p = true
    · rw [if_pos hb]
      exact List.mem_cons_of_mem p (ih q)
    · rw [if_neg hb]
      rcases List.mem_cons.mp (ih p) with h | h
      · exact List.mem_cons.mpr (.inl h)
      · exact List.mem_cons_of_mem p (List.mem_cons_of_mem q h)

end Parse

namespace Grammar

variable {S C M : Type}

/-- Goes on behind a child that matched: the reader stands at the end of its token. -/
def onward (g : Grammar S C M) (c : Tree S C M) (source : S) (r : Reader) (s : Segment S C M) :
    Except Fault (Trial S C M) :=
  match c.redirect with
  | some target =>
    if r.canRead 1 then
      (g.parseAt (g.resolve target) (r.advance 1)
        (.start source (some target) (r.advance 1).cursor)).map fun p => .decided (p.under s)
    else .ok (.candidate ⟨⟨s, []⟩, r, []⟩)
  | none =>
    if r.canRead 2 then (g.parseAt c (r.advance 1) s).map .candidate
    else .ok (.candidate ⟨⟨s, []⟩, r, []⟩)

/-- Tries one child at a reader. -/
def trial (g : Grammar S C M) (c : Tree S C M) (r : Reader) (s : Segment S C M) :
    Except Fault (Trial S C M) :=
  match c.eligible s.frame r with
  | .error f => .error f
  | .ok false => .ok .skipped
  | .ok true =>
    match c.attempt r s with
    | .error e => .ok (.failed c.id e)
    | .ok (s', n) => g.onward c s.frame.source (r.advance n) s'

/-- Exploring is trying the children in turn, up to the first that decides. -/
theorem explore_cons (g : Grammar S C M) (c : Tree S C M) (cs : List (Tree S C M)) (r : Reader)
    (s : Segment S C M) :
    g.explore (c :: cs) r s =
      match g.trial c r s with
      | .error f => .error f
      | .ok (.decided p) => .ok (.decided p)
      | .ok tried => (g.explore cs r s).map tried.addTo := by
  have hid : ∀ x : Except Fault (Exploration S C M), x = x.map fun e => e := by
    intro x; cases x <;> rfl
  rw [explore, trial]
  cases c.eligible s.frame r with
  | error f => rfl
  | ok admitted =>
    cases admitted with
    | false => exact hid _
    | true =>
      cases c.attempt r s with
      | error e => rfl
      | ok matched =>
        obtain ⟨s', n⟩ := matched
        dsimp only
        rw [onward]
        cases c.redirect with
        | some target =>
          simp only [Reader.advance_advance]
          split
          · cases g.parseAt (g.resolve target) (r.advance (n + 1))
              (.start s.frame.source (some target) (r.advance (n + 1)).cursor) <;> rfl
          · rfl
        | none =>
          simp only [Reader.advance_advance]
          split
          · cases g.parseAt c (r.advance (n + 1)) s' <;> rfl
          · rfl

/-- How the parse below a node can come to rest: where it began, if no child matched; behind a child
that nothing can follow; where the parse below a child did; or where the parse behind a redirect did. -/
inductive Reaches (g : Grammar S C M) :
    Tree S C M → Reader → Segment S C M → Parse S C M → Prop
  | stop (t : Tree S C M) (r : Reader) (s : Segment S C M) (errors : List (NodeId × SyntaxError))
      (tried : g.explore (t.relevant r) r s = .ok (.pending errors [])) :
      Reaches g t r s ⟨⟨s, []⟩, r, errors⟩
  | rest {t c : Tree S C M} {r : Reader} {s s' : Segment S C M} {n : Nat}
      (relevant : c ∈ t.relevant r) (usable : c.Usable s.frame r)
      (matched : c.attempt r s = .ok (s', n)) (spent : (r.advance n).canRead 2 = false) :
      Reaches g t r s ⟨⟨s', []⟩, r.advance n, []⟩
  | child {t c : Tree S C M} {r : Reader} {s s' : Segment S C M} {n : Nat} {p : Parse S C M}
      (relevant : c ∈ t.relevant r) (usable : c.Usable s.frame r)
      (matched : c.attempt r s = .ok (s', n)) (more : (r.advance n).canRead 2 = true)
      (direct : c.redirect = none) (below : Reaches g c (r.advance (n + 1)) s' p) :
      Reaches g t r s p
  | redirect {t c : Tree S C M} {r : Reader} {s s' : Segment S C M} {n : Nat} {target : NodeId}
      {p : Parse S C M} (relevant : c ∈ t.relevant r) (usable : c.Usable s.frame r)
      (matched : c.attempt r s = .ok (s', n)) (more : (r.advance n).canRead 1 = true)
      (leads : c.redirect = some target)
      (below : Reaches g (g.resolve target) (r.advance (n + 1))
        (.start s.frame.source (some target) (r.advance (n + 1)).cursor) p) :
      Reaches g t r s (p.under s')

theorem not_canRead_two {r : Reader} (h : r.canRead 1 = false) : r.canRead 2 = false := by
  simp only [Reader.canRead, decide_eq_false_iff_not] at h ⊢
  omega

section

variable {g : Grammar S C M} {t c : Tree S C M} {r : Reader} {s : Segment S C M}

/-- Whatever a trial has to offer was reached through its child, if that holds of the parses further
on. -/
theorem reaches_of_trial {tried : Trial S C M} {p : Parse S C M}
    (ih : ∀ t' r' s' p', r'.ahead < r.ahead → g.parseAt t' r' s' = .ok p' → g.Reaches t' r' s' p')
    (hc : c ∈ t.relevant r) (h : g.trial c r s = .ok tried)
    (hp : tried = .decided p ∨ tried = .candidate p) : g.Reaches t r s p := by
  unfold trial at h
  split at h
  · cases h
  · cases h
    simp at hp
  · rename_i hel
    have hu := Tree.eligible_iff.mp hel
    split at h
    · cases h
      simp at hp
    · rename_i s' n hm
      unfold onward at h
      split at h
      · rename_i target hd
        split at h
        · rename_i hr
          obtain ⟨q, hq, rfl⟩ := map_eq_ok_iff.mp h
          obtain rfl : q.under s' = p := by simpa using hp
          rw [Reader.advance_advance] at hq
          exact .redirect hc hu hm hr hd (ih _ _ _ _ (Reader.ahead_advance_lt hr (by decide)) hq)
        · rename_i hr
          cases h
          obtain rfl := Trial.candidate.inj (by simpa using hp)
          exact .rest hc hu hm (not_canRead_two (by simpa using hr))
      · rename_i hd
        split at h
        · rename_i hr
          obtain ⟨q, hq, rfl⟩ := map_eq_ok_iff.mp h
          obtain rfl : q = p := by simpa using hp
          rw [Reader.advance_advance] at hq
          exact .child hc hu hm hr hd (ih _ _ _ _ (Reader.ahead_advance_lt hr (by decide)) hq)
        · rename_i hr
          cases h
          obtain rfl := Trial.candidate.inj (by simpa using hp)
          exact .rest hc hu hm (by simpa using hr)

/-- Every parse that exploring has to offer was reached through one of the children. -/
theorem reaches_of_explore {cs : List (Tree S C M)} {e : Exploration S C M}
    (ih : ∀ t' r' s' p', r'.ahead < r.ahead → g.parseAt t' r' s' = .ok p' → g.Reaches t' r' s' p')
    (hcs : ∀ c ∈ cs, c ∈ t.relevant r) (h : g.explore cs r s = .ok e) :
    ∀ p ∈ e.parses, g.Reaches t r s p := by
  induction cs generalizing e with
  | nil =>
    rw [explore_nil] at h
    cases h
    simp [Exploration.parses]
  | cons c cs rest =>
    rw [explore_cons] at h
    have hc := hcs c List.mem_cons_self
    have hcs' : ∀ d ∈ cs, d ∈ t.relevant r := fun d hd => hcs d (List.mem_cons_of_mem c hd)
    split at h
    · cases h
    · rename_i p htried
      cases h
      intro q hq
      obtain rfl : q = p := by simpa [Exploration.parses] using hq
      exact reaches_of_trial ih hc htried (.inl rfl)
    · rename_i tried hnot htried
      obtain ⟨e', he', rfl⟩ := map_eq_ok_iff.mp h
      have hrest := rest hcs' he'
      intro p hp
      cases tried with
      | skipped => exact hrest p hp
      | failed id error => cases e' <;> exact hrest p hp
      | decided q => exact absurd rfl (hnot q)
      | candidate q =>
        cases e' with
        | decided q' => exact hrest p hp
        | pending errors ps =>
          rcases List.mem_cons.mp hp with rfl | hp
          · exact reaches_of_trial ih hc htried (.inr rfl)
          · exact hrest p hp

end

/-- A parse comes to rest only where it can. -/
theorem reaches_of_parseAt {g : Grammar S C M} {t : Tree S C M} {r : Reader} {s : Segment S C M}
    {p : Parse S C M} (h : g.parseAt t r s = .ok p) : g.Reaches t r s p := by
  generalize hn : r.ahead = n
  -- A child or a redirect is followed behind at least one byte, so less lies ahead of it.
  induction n using Nat.strongRecOn generalizing t r s p with
  | ind n ih =>
    subst hn
    rw [parseAt_eq] at h
    obtain ⟨e, he, rfl⟩ := map_eq_ok_iff.mp h
    have hall := reaches_of_explore (fun t' r' s' p' hlt hp' => ih _ hlt hp' rfl)
      (fun c hc => hc) he
    cases e with
    | decided p => exact hall p List.mem_cons_self
    | pending errors ps =>
      cases ps with
      | nil => exact .stop t r s errors he
      | cons p ps => exact hall _ (p.best_mem ps)

end Grammar

end CommandTree
