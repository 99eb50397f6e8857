import CommandTree.Proofs.Siblings
import CommandTree.Proofs.Uniformity
import Mathlib

/-!
Parsing behind other text. Main statement: where no argument type and no condition can tell whether a
text stands before the input, a parse goes the same way behind it, and its frames are those of the
parse without that text, with every position moved by its length.
-/

namespace CommandTree

def Span.shift (k : Int) (s : Span) : Span := ⟨s.start + k, s.stop + k⟩

theorem Span.shift_union (k : Int) (a b : Span) :
    (a.union b).shift k = (a.shift k).union (b.shift k) := by
  simp only [shift, union, mk.injEq]
  omega

def Match.shift (k : Int) (m : Match) : Match := { m with span := m.span.shift k }

def Binding.shift (k : Int) (b : Binding) : Binding := { b with span := b.span.shift k }

namespace Bindings

def shift (k : Int) (bs : Bindings) : Bindings := bs.map fun b => (b.1, b.2.shift k)

theorem shift_insert (k : Int) (name : Text) (b : Binding) (bs : Bindings) :
    (bs.insert name b).shift k = (bs.shift k).insert name (b.shift k) := by
  induction bs with
  | nil => rfl
  | cons p rest ih =>
    by_cases h : name = p.1
    · simp [insert, shift, h]
    · by_cases hl : name < p.1
      · simp [insert, shift, h, hl]
      · simpa [insert, shift, h, hl] using ih

end Bindings

namespace Frame

variable {S : Type}

/-- The frame with all its positions moved. -/
def shift (k : Int) (f : Frame S) : Frame S :=
  { f with
    span := f.span.shift k
    matched := f.matched.map (Match.shift k)
    bindings := f.bindings.shift k }

theorem shift_bind (k : Int) (f : Frame S) (name : Text) (b : Binding) :
    (f.bind name b).shift k = (f.shift k).bind name (b.shift k) := by
  simp only [bind, shift, Bindings.shift_insert]

theorem shift_push (k : Int) (f : Frame S) (m : Match) :
    (f.push m).shift k = (f.shift k).push (m.shift k) := by
  simp only [push, shift, Span.shift_union, List.map_append]
  rfl

end Frame

namespace Segment

variable {S C M : Type}

def shift (k : Int) (s : Segment S C M) : Segment S C M := { s with frame := s.frame.shift k }

theorem shift_start (k : Int) (source : S) (root : Option NodeId) (position : Int) :
    (start source root position : Segment S C M).shift k = start source root (position + k) := rfl

end Segment

def Chain.shift {S C M : Type} (k : Int) (c : Chain S C M) : Chain S C M :=
  ⟨c.first.shift k, c.later.map (Segment.shift k)⟩

theorem Chain.all_shift {S C M : Type} (k : Int) (c : Chain S C M) :
    (c.shift k).all = c.all.map (Segment.shift k) := rfl

/-- What a failed reading is reported as. Faults that are no syntax errors become one at the place
where they arose. -/
def Reader.blame (r : Reader) (n : Nat) : Fault → SyntaxError
  | .rejected e => e
  | f => (r.advance n).error (.unreadable f.describe)

/-- A type reads the same behind a text: the same value of the same length, or it fails in both
places, with errors that are related. -/
def ArgumentType.Moves (E : SyntaxError → SyntaxError → Prop) (before : Text)
    (type : ArgumentType) : Prop :=
  ∀ r : Reader, r.Inside →
    (∀ v n, type.parse r = (.ok v, n) → type.parse (r.behind before) = (.ok v, n)) ∧
    ∀ f n, type.parse r = (.error f, n) → ∃ f' n', type.parse (r.behind before) = (.error f', n') ∧
      E (r.blame n f) ((r.behind before).blame n' f')

namespace Tree

variable {S C M : Type} {r : Reader} {before : Text}

theorem relevant_behind (t : Tree S C M) (h0 : 0 ≤ r.cursor) :
    t.relevant (r.behind before) = t.relevant r := by
  rw [relevant, relevant, Reader.rest_of_behind before h0]

theorem wordAt_behind (word : Text) (h0 : 0 ≤ r.cursor) :
    wordAt word (r.behind before) = wordAt word r := by
  have h0' : 0 ≤ (r.advance word.length).cursor := by rw [Reader.advance_cursor]; omega
  rw [wordAt, wordAt, Reader.canRead_behind, Reader.rest_of_behind before h0,
    Reader.advance_behind, Reader.atBoundary_behind before h0']

theorem visit_shift (t : Tree S C M) (k : Int) (span : Span) (s : Segment S C M) :
    t.visit (span.shift k) (s.shift k) = (t.visit span s).shift k := by
  simp only [visit, Segment.shift, Frame.shift_push]
  rfl

theorem span_behind (before : Text) (r : Reader) (n : Nat) :
    (⟨(r.behind before).cursor, (r.behind before).cursor + n⟩ : Span) =
      Span.shift before.length ⟨r.cursor, r.cursor + n⟩ := by
  simp only [Reader.cursor_behind, Span.shift, Span.mk.injEq, true_and]
  omega

end Tree

/-- Two outcomes are the same fault, or results that are related. -/
inductive Agree {α β : Type} (R : α → β → Prop) : Except Fault α → Except Fault β → Prop
  | error (f : Fault) : Agree R (.error f) (.error f)
  | ok {a : α} {b : β} (related : R a b) : Agree R (.ok a) (.ok b)

theorem Agree.map {α β α' β' : Type} {R : α → β → Prop} {R' : α' → β' → Prop}
    {x : Except Fault α} {y : Except Fault β} {f : α → α'} {g : β → β'} (h : Agree R x y)
    (hfg : ∀ a b, R a b → R' (f a) (g b)) : Agree R' (x.map f) (y.map g) := by
  cases h with
  | error f => exact .error f
  | ok related => exact .ok (hfg _ _ related)

/-- Errors of the same nodes, pairwise related. -/
abbrev ErrorsMoved (E : SyntaxError → SyntaxError → Prop) :
    List (NodeId × SyntaxError) → List (NodeId × SyntaxError) → Prop :=
  List.Forall₂ fun a b => a.1 = b.1 ∧ E a.2 b.2

/-- A parse that came to rest behind a text where another one did without the text. -/
structure Parse.Moved {S C M : Type} (E : SyntaxError → SyntaxError → Prop) (before : Text)
    (p p' : Parse S C M) : Prop where
  chain : p'.chain = p.chain.shift before.length
  reader : p'.reader = p.reader.behind before
  errors : ErrorsMoved E p.errors p'.errors

inductive Trial.Moved {S C M : Type} (E : SyntaxError → SyntaxError → Prop) (before : Text) :
    Trial S C M → Trial S C M → Prop
  | skipped : Moved E before .skipped .skipped
  | failed (id : NodeId) {e e' : SyntaxError} (related : E e e') :
      Moved E before (.failed id e) (.failed id e')
  | decided {p p' : Parse S C M} (moved : p.Moved E before p') :
      Moved E before (.decided p) (.decided p')
  | candidate {p p' : Parse S C M} (moved : p.Moved E before p') :
      Moved E before (.candidate p) (.candidate p')

inductive Exploration.Moved {S C M : Type} (E : SyntaxError → SyntaxError → Prop)
    (before : Text) : Exploration S C M → Exploration S C M → Prop
  | decided {p p' : Parse S C M} (moved : p.Moved E before p') :
      Moved E before (.decided p) (.decided p')
  | pending {es es' : List (NodeId × SyntaxError)} {ps ps' : List (Parse S C M)}
      (errors : ErrorsMoved E es es') (parses : List.Forall₂ (Parse.Moved E before) ps ps') :
      Moved E before (.pending es ps) (.pending es' ps')

section

variable {S C M : Type} {E : SyntaxError → SyntaxError → Prop} {before : Text}

namespace Parse

variable {p p' q q' : Parse S C M}

theorem Moved.isDone (h : p.Moved E before p') : p'.isDone = p.isDone := by
  rw [Parse.isDone, Parse.isDone, h.reader, Reader.canRead_behind]

theorem Moved.isClean (h : p.Moved E before p') : p'.isClean = p.isClean := by
  have herrors := h.errors
  rw [Parse.isClean, Parse.isClean]
  generalize p.errors = es, p'.errors = es' at herrors ⊢
  cases herrors <;> rfl

theorem Moved.better (hp : p.Moved E before p') (hq : q.Moved E before q') :
    p'.better q' = p.better q := by
  rw [Parse.better, Parse.better, hp.isDone, hp.isClean, hq.isDone, hq.isClean]

theorem Moved.best {ps ps' : List (Parse S C M)} (hp : p.Moved E before p')
    (hps : List.Forall₂ (Moved E before) ps ps') : (p.best ps).Moved E before (p'.best ps') := by
  unfold Parse.best
  induction hps generalizing p p' with
  | nil => exact hp
  | @cons q q' qs qs' hq _ ih =>
    rw [List.foldl_cons, List.foldl_cons]
    by_cases hb : q.better p = true
    · rw [if_pos hb, if_pos ((hq.better hp).trans hb)]
      exact ih hq
    · rw [if_neg hb, if_neg (by rwa [hq.better hp])]
      exact ih hp

theorem Moved.under (h : p.Moved E before p') (s : Segment S C M) :
    (p.under s).Moved E before (p'.under (s.shift before.length)) where
  chain := by
    show (⟨_, p'.chain.all⟩ : Chain S C M) = _
    rw [h.chain, Chain.all_shift]
    rfl
  reader := h.reader
  errors := h.errors

/-- A parse that rests behind its last node. -/
theorem moved_rest (s : Segment S C M) (r : Reader) :
    Moved E before ⟨⟨s, []⟩, r, []⟩ ⟨⟨s.shift before.length, []⟩, r.behind before, []⟩ :=
  ⟨rfl, rfl, .nil⟩

end Parse

theorem Exploration.Moved.add {e e' : Exploration S C M} {tried tried' : Trial S C M}
    (he : e.Moved E before e') (h : tried.Moved E before tried') :
    (tried.addTo e).Moved E before (tried'.addTo e') := by
  cases h with
  | skipped => exact he
  | decided moved => exact .decided moved
  | failed id related =>
    cases he with
    | decided moved => exact .decided moved
    | pending errors parses => exact .pending (.cons ⟨rfl, related⟩ errors) parses
  | candidate moved =>
    cases he with
    | decided moved => exact .decided moved
    | pending errors parses => exact .pending errors (.cons moved parses)

theorem Exploration.Moved.conclude {e e' : Exploration S C M} (h : e.Moved E before e')
    (s : Segment S C M) (r : Reader) :
    (e.conclude s r).Moved E before
      (e'.conclude (s.shift before.length) (r.behind before)) := by
  cases h with
  | decided moved => exact moved
  | pending errors parses =>
    cases parses with
    | nil => exact ⟨rfl, rfl, errors⟩
    | cons moved parses => exact moved.best parses

/-- Nothing in a grammar can tell whether a text stands before: not an argument type, and not a
condition on what was matched before. Errors made by the parse itself are related. -/
structure Grammar.Movable (E : SyntaxError → SyntaxError → Prop) (before : Text)
    (g : Grammar S C M) : Prop where
  own : ∀ (r : Reader) (cause : Cause), E (r.error cause) ((r.behind before).error cause)
  types : ∀ t, g.Reachable t → ∀ name type provider,
    t.traits.kind = .argument name type provider → type.Moves E before
  conditions : ∀ t, g.Reachable t → ∀ q, t.traits.contextRequirement = some q →
    ∀ (f : Frame S) (r : Reader), q (f.shift before.length) (r.behind before) = q f r

namespace Tree

/-- The node matches behind a text as it does without it, or fails in both places. -/
structure MatchesBehind (E : SyntaxError → SyntaxError → Prop) (before : Text) (c : Tree S C M)
    (r : Reader) (s : Segment S C M) : Prop where
  matched : ∀ s' n, c.attempt r s = .ok (s', n) →
    c.attempt (r.behind before) (s.shift before.length) = .ok (s'.shift before.length, n)
  failed : ∀ e, c.attempt r s = .error e →
    ∃ e', c.attempt (r.behind before) (s.shift before.length) = .error e' ∧ E e e'

variable {c : Tree S C M} {r : Reader} {s : Segment S C M}

theorem matchesBehind_of_error {e e' : SyntaxError} (h : c.attempt r s = .error e)
    (h' : c.attempt (r.behind before) (s.shift before.length) = .error e') (hE : E e e') :
    c.MatchesBehind E before r s where
  matched s' n hs := absurd (h.symm.trans hs) (by simp)
  failed d hd := by
    obtain rfl := Except.error.inj (h.symm.trans hd)
    exact ⟨e', h', hE⟩

/-- Behind what was accepted, only the boundary counts. -/
theorem matchesBehind_of_accept {s₁ : Segment S C M} {n : Nat} (h0 : 0 ≤ r.cursor)
    (own : ∀ (r : Reader) (cause : Cause), E (r.error cause) ((r.behind before).error cause))
    (h : c.accept r s = (.ok s₁, n))
    (h' : c.accept (r.behind before) (s.shift before.length) =
      (.ok (s₁.shift before.length), n)) : c.MatchesBehind E before r s := by
  have hgap : ((r.behind before).advance n).atBoundary = (r.advance n).atBoundary := by
    rw [Reader.advance_behind]
    exact Reader.atBoundary_behind before (by rw [Reader.advance_cursor]; omega)
  by_cases hb : (r.advance n).atBoundary = true
  · have hm : c.attempt r s = .ok ({ s₁ with command := c.command }, n) := by
      simp only [attempt, h, hb, if_true]
    refine ⟨fun s' m hs => ?_, fun e he => absurd (hm.symm.trans he) (by simp)⟩
    obtain ⟨rfl, rfl⟩ := Prod.mk.inj (Except.ok.inj (hm.symm.trans hs))
    simp only [attempt, h', hgap, hb, if_true]
    rfl
  · refine matchesBehind_of_error (by simp only [attempt, h, hb]; rfl)
      (by simp only [attempt, h', hgap, hb]; rfl) ?_
    rw [Reader.advance_behind]
    exact own _ _

theorem attempt_of_refused {name : Text} {type : ArgumentType} {provider : Option (Provider S)}
    (hk : c.traits.kind = .argument name type provider) (r : Reader) (s : Segment S C M) {f : Fault}
    {n : Nat} (h : type.parse r = (.error f, n)) : c.attempt r s = .error (r.blame n f) := by
  unfold attempt accept
  simp only [hk, h]
  cases f <;> rfl

theorem matchesBehind (hr : r.Inside)
    (own : ∀ (r : Reader) (cause : Cause), E (r.error cause) ((r.behind before).error cause))
    (htype : ∀ name type provider, c.traits.kind = .argument name type provider →
      type.Moves E before) (s : Segment S C M) : c.MatchesBehind E before r s := by
  cases hk : c.traits.kind with
  | root => exact matchesBehind_of_accept hr.1 own (by rw [accept, hk]) (by rw [accept, hk])
  | literal word =>
    by_cases hw : wordAt word r = true
    · have hacc : c.accept r s =
          (.ok (c.visit ⟨r.cursor, r.cursor + word.length⟩ s), word.length) := by
        simp only [accept, hk, hw, if_true]
      refine matchesBehind_of_accept hr.1 own hacc ?_
      simp only [accept, hk, wordAt_behind word hr.1, hw, if_true, span_behind, visit_shift]
    · have hrefused : ∀ (r : Reader) (s : Segment S C M), ¬ wordAt word r = true →
          c.attempt r s = .error (r.error (.incorrectLiteral word)) := by
        intro r s hw
        simp [attempt, accept, hk, hw, Reader.reject]
      exact matchesBehind_of_error (hrefused r s hw)
        (hrefused _ _ (by rwa [wordAt_behind word hr.1])) (own r _)
  | argument name type provider =>
    obtain ⟨hok, herror⟩ := htype name type provider hk r hr
    rcases hread : type.parse r with ⟨f | v, n⟩
    · obtain ⟨f', n', hread', hE⟩ := herror f n hread
      exact matchesBehind_of_error (attempt_of_refused hk r s hread)
        (attempt_of_refused hk _ _ hread') hE
    · have hacc : c.accept r s = (.ok (c.visit ⟨r.cursor, r.cursor + n⟩
          { s with frame := s.frame.bind name ⟨⟨r.cursor, r.cursor + n⟩, v⟩ }), n) := by
        simp only [accept, hk, hread]
      refine matchesBehind_of_accept hr.1 own hacc ?_
      simp only [accept, hk, hok v n hread, span_behind]
      rw [← visit_shift]
      simp only [Segment.shift, Frame.shift_bind]
      rfl

end Tree

namespace Grammar

variable {g : Grammar S C M}

theorem eligible_behind {c : Tree S C M} {r : Reader}
    (hcondition : ∀ q, c.traits.contextRequirement = some q →
      ∀ (f : Frame S) (r : Reader), q (f.shift before.length) (r.behind before) = q f r)
    (f : Frame S) : c.eligible (f.shift before.length) (r.behind before) = c.eligible f r := by
  have hsource : (f.shift before.length).source = f.source := rfl
  rw [Tree.eligible, Tree.eligible, hsource]
  cases hq : c.traits.contextRequirement with
  | none => rfl
  | some q =>
    dsimp only
    rw [hcondition q hq]

/-- A child is tried behind a text as it is without it, if that holds of the parses further on. -/
theorem trial_behind (hg : g.Movable E before) {c : Tree S C M} {r : Reader} (hc : g.Reachable c)
    (hr : r.Inside) (s : Segment S C M)
    (ih : ∀ t' r' s', r'.ahead < r.ahead → g.Reachable t' → r'.Inside →
      Agree (Parse.Moved E before) (g.parseAt t' r' s')
        (g.parseAt t' (r'.behind before) (s'.shift before.length))) :
    Agree (Trial.Moved E before) (g.trial c r s)
      (g.trial c (r.behind before) (s.shift before.length)) := by
  have hframe : (s.shift before.length).frame = s.frame.shift before.length := rfl
  have hmatches := Tree.matchesBehind hr hg.own (hg.types c hc) s
  rw [trial, trial, hframe, eligible_behind (hg.conditions c hc)]
  cases c.eligible s.frame r with
  | error f => exact .error f
  | ok admitted =>
    cases admitted with
    | false => exact .ok .skipped
    | true =>
      cases hm : c.attempt r s with
      | error e =>
        obtain ⟨e', hm', hE⟩ := hmatches.failed e hm
        rw [hm']
        exact .ok (.failed c.id hE)
      | ok matched =>
        obtain ⟨s', n⟩ := matched
        rw [hmatches.matched s' n hm]
        dsimp only
        rw [onward, onward, Reader.advance_behind, Reader.advance_behind]
        have hnext : ∀ m : Int, 1 ≤ m → (r.advance n).canRead m = true →
            ((r.advance n).advance 1).Inside := fun m hm hread => by
          rw [Reader.advance_advance]
          exact hr.next hm hread
        cases hd : c.redirect with
        | some target =>
          dsimp only
          rw [Reader.canRead_behind]
          by_cases hread : (r.advance n).canRead 1 = true
          · have hbelow := ih (g.resolve target) ((r.advance n).advance 1)
              (.start s.frame.source (some target) ((r.advance n).advance 1).cursor)
              (by rw [Reader.advance_advance]; exact Reader.ahead_advance_lt hread (by decide))
              (hc.redirect hd) (hnext 1 (by decide) hread)
            rw [if_pos hread, if_pos hread]
            exact hbelow.map fun p p' hp => .decided (hp.under s')
          · rw [if_neg hread, if_neg hread]
            exact .ok (.candidate (Parse.moved_rest s' _))
        | none =>
          dsimp only
          rw [Reader.canRead_behind]
          by_cases hread : (r.advance n).canRead 2 = true
          · have hbelow := ih c ((r.advance n).advance 1) s'
              (by rw [Reader.advance_advance]; exact Reader.ahead_advance_lt hread (by decide))
              hc (hnext 2 (by decide) hread)
            rw [if_pos hread, if_pos hread]
            exact hbelow.map fun p p' hp => .candidate hp
          · rw [if_neg hread, if_neg hread]
            exact .ok (.candidate (Parse.moved_rest s' _))

/-- Children are explored behind a text as they are without it, if that holds of the parses further
on. -/
theorem explore_behind (hg : g.Movable E before) {cs : List (Tree S C M)} {r : Reader}
    (hcs : ∀ c ∈ cs, g.Reachable c) (hr : r.Inside) (s : Segment S C M)
    (ih : ∀ t' r' s', r'.ahead < r.ahead → g.Reachable t' → r'.Inside →
      Agree (Parse.Moved E before) (g.parseAt t' r' s')
        (g.parseAt t' (r'.behind before) (s'.shift before.length))) :
    Agree (Exploration.Moved E before) (g.explore cs r s)
      (g.explore cs (r.behind before) (s.shift before.length)) := by
  induction cs with
  | nil =>
    rw [explore_nil, explore_nil]
    exact .ok (.pending .nil .nil)
  | cons c cs rest =>
    have hrest := rest fun d hd => hcs d (List.mem_cons_of_mem c hd)
    have htrial := trial_behind hg (hcs c List.mem_cons_self) hr s ih
    rw [explore_cons, explore_cons]
    generalize g.trial c r s = x, g.trial c (r.behind before) _ = y at htrial ⊢
    cases htrial with
    | error f => exact .error f
    | ok tried =>
      cases tried with
      | decided moved => exact .ok (.decided moved)
      | skipped => exact hrest.map fun e e' he => he.add .skipped
      | failed id related => exact hrest.map fun e e' he => he.add (.failed id related)
      | candidate moved => exact hrest.map fun e e' he => he.add (.candidate moved)

/-- A parse goes the same way behind a text, and comes to rest with everything moved. -/
theorem parseAt_behind (hg : g.Movable E before) {t : Tree S C M} {r : Reader}
    (ht : g.Reachable t) (hr : r.Inside) (s : Segment S C M) :
    Agree (Parse.Moved E before) (g.parseAt t r s)
      (g.parseAt t (r.behind before) (s.shift before.length)) := by
  generalize hm : r.ahead = m
  -- A child or a redirect is followed behind at least one byte, so less lies ahead of it.
  induction m using Nat.strongRecOn generalizing t r s with
  | ind m ih =>
    subst hm
    have hbelow : ∀ c ∈ t.relevant r, g.Reachable c := fun c hc =>
      ht.child (Tree.mem_relevant hc).1
    have hexplore := explore_behind hg hbelow hr s
      fun t' r' s' hlt ht' hr' => ih _ hlt ht' hr' s' rfl
    rw [parseAt_eq, parseAt_eq, Tree.relevant_behind t hr.1]
    exact hexplore.map fun e e' he => he.conclude s r

end Grammar

end

end CommandTree
