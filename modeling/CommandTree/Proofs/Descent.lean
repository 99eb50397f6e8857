import CommandTree.Proofs.Words
import Mathlib

/-!
How deep a parse descends. The parse is written once more with a record of the calls that it makes,
and the record does not change its outcome. Main statement: whatever the redirects, every call begins
behind the one that it is made in and inside the input, so the calls are no deeper, and the matched
nodes no more, than the bytes ahead and one.
-/

namespace CommandTree

/-- A call of a parse: the position where it begins, and the calls made in it, one after another. -/
inductive Descent
  | call (cursor : Int) (inner : List Descent)

namespace Descent

def cursor : Descent → Int
  | call cursor _ => cursor

mutual
/-- How many calls are open at once, at most. -/
def depth : Descent → Nat
  | call _ inner => deepest inner + 1

def deepest : List Descent → Nat
  | [] => 0
  | d :: ds => max d.depth (deepest ds)
end

/-- Every call made in another one begins behind it, and not behind the limit. -/
inductive Climbs (limit : Int) : Descent → Prop
  | call {cursor : Int} {inner : List Descent}
      (further : ∀ d ∈ inner, cursor < d.cursor ∧ d.cursor ≤ limit)
      (climbs : ∀ d ∈ inner, Climbs limit d) : Climbs limit (.call cursor inner)

theorem deepest_le {ds : List Descent} {m : Nat} (h : ∀ d ∈ ds, d.depth ≤ m) :
    deepest ds ≤ m := by
  induction ds with
  | nil => exact Nat.zero_le m
  | cons d ds ih =>
    exact Nat.max_le.mpr ⟨h d List.mem_cons_self, ih fun d' hd => h d' (List.mem_cons_of_mem d hd)⟩

/-- Calls that climb are no deeper than the positions left, the one where they begin included. -/
theorem Climbs.depth_le {limit : Int} {d : Descent} (h : d.Climbs limit) :
    d.depth ≤ (limit - d.cursor).toNat + 1 := by
  induction h with
  | @call cursor inner further climbs ih =>
    have hinner : deepest inner ≤ (limit - cursor).toNat := by
      refine deepest_le fun d hd => ?_
      have hdepth := ih d hd
      have hcursor := further d hd
      omega
    exact Nat.succ_le_succ hinner

end Descent

namespace Grammar

variable {S C M : Type}

mutual
/-- Parses on below a node, with the call that this is. -/
def parseTraced (g : Grammar S C M) (t : Tree S C M) (r : Reader) (s : Segment S C M) :
    Except Fault (Parse S C M) × Descent :=
  match g.exploreTraced (t.relevant r) r s with
  | (.ok e, calls) => (.ok (e.conclude s r), .call r.cursor calls)
  | (.error f, calls) => (.error f, .call r.cursor calls)
termination_by (r.ahead, 1, 0)

/-- Tries children in turn, with the calls made for them, also for one that ends in a fault. -/
def exploreTraced (g : Grammar S C M) (cs : List (Tree S C M)) (r : Reader) (s : Segment S C M) :
    Except Fault (Exploration S C M) × List Descent :=
  match cs with
  | [] => (.ok (.pending [] []), [])
  | c :: cs =>
    match c.eligible s.frame r with
    | .error f => (.error f, [])
    | .ok false => g.exploreTraced cs r s
    | .ok true =>
      match c.attempt r s with
      | .error e => (g.exploreTraced cs r s).map (·.map (·.withError c.id e)) id
      | .ok (s', n) =>
        match c.redirect with
        | some target =>
          if _ : (r.advance n).canRead 1 then
            let r' := r.advance (n + 1)
            match g.parseTraced (g.resolve target) r'
                (.start s.frame.source (some target) r'.cursor) with
            | (.ok p, call) => (.ok (.decided (p.under s')), [call])
            | (.error f, call) => (.error f, [call])
          else
            (g.exploreTraced cs r s).map (·.map (·.withParse ⟨⟨s', []⟩, r.advance n, []⟩)) id
        | none =>
          if _ : (r.advance n).canRead 2 then
            match g.parseTraced c (r.advance (n + 1)) s' with
            | (.ok p, call) => (g.exploreTraced cs r s).map (·.map (·.withParse p)) (call :: ·)
            | (.error f, call) => (.error f, [call])
          else
            (g.exploreTraced cs r s).map (·.map (·.withParse ⟨⟨s', []⟩, r.advance n, []⟩)) id
termination_by (r.ahead, 0, cs.length)
decreasing_by
  all_goals first
    | (apply Prod.Lex.left; exact Reader.ahead_advance_lt (by assumption) (by decide))
    | (apply Prod.Lex.right; apply Prod.Lex.right; simp)
end

/-- Parses what lies ahead of a reader, with the calls made for that. -/
def traced (g : Grammar S C M) (source : S) (r : Reader) : Except Fault (Parse S C M) × Descent :=
  g.parseTraced g.root r (.start source (some g.root.id) r.cursor)

theorem parseTraced_eq (g : Grammar S C M) (t : Tree S C M) (r : Reader) (s : Segment S C M) :
    g.parseTraced t r s =
      (g.exploreTraced (t.relevant r) r s).map (·.map (·.conclude s r)) (.call r.cursor) := by
  rw [parseTraced]
  rcases g.exploreTraced (t.relevant r) r s with ⟨_ | _, calls⟩ <;> rfl

theorem exploreTraced_value {g : Grammar S C M} {r : Reader} {s : Segment S C M}
    (ih : ∀ t' r' s', r'.ahead < r.ahead → (g.parseTraced t' r' s').1 = g.parseAt t' r' s')
    (cs : List (Tree S C M)) : (g.exploreTraced cs r s).1 = g.explore cs r s := by
  induction cs with
  | nil => rw [exploreTraced, explore]
  | cons c cs rest =>
    rw [exploreTraced, explore]
    cases c.eligible s.frame r with
    | error f => rfl
    | ok admitted =>
      cases admitted with
      | false => exact rest
      | true =>
        cases c.attempt r s with
        | error e => exact congrArg (Except.map _) rest
        | ok matched =>
          obtain ⟨s', n⟩ := matched
          cases c.redirect with
          | some target =>
            dsimp only
            by_cases hr : (r.advance n).canRead 1 = true
            · rw [dif_pos hr, dif_pos hr]
              have hbelow := ih (g.resolve target) (r.advance (n + 1))
                (.start s.frame.source (some target) (r.advance (n + 1)).cursor)
                (Reader.ahead_advance_lt hr (by decide))
              rw [← hbelow]
              rcases g.parseTraced (g.resolve target) _ _ with ⟨_ | _, call⟩ <;> rfl
            · rw [dif_neg hr, dif_neg hr]
              exact congrArg (Except.map _) rest
          | none =>
            dsimp only
            by_cases hr : (r.advance n).canRead 2 = true
            · rw [dif_pos hr, dif_pos hr]
              have hbelow := ih c (r.advance (n + 1)) s' (Reader.ahead_advance_lt hr (by decide))
              rw [← hbelow]
              rcases g.parseTraced c _ _ with ⟨f | p, call⟩
              · rfl
              · exact congrArg (Except.map _) rest
            · rw [dif_neg hr, dif_neg hr]
              exact congrArg (Except.map _) rest

/-- The record of the calls does not change what a parse comes to. -/
theorem parseTraced_value (g : Grammar S C M) (t : Tree S C M) (r : Reader) (s : Segment S C M) :
    (g.parseTraced t r s).1 = g.parseAt t r s := by
  generalize hm : r.ahead = m
  induction m using Nat.strongRecOn generalizing t r s with
  | ind m ih =>
    subst hm
    rw [parseTraced_eq, parseAt_eq,
      ← exploreTraced_value fun t' r' s' hlt => ih _ hlt t' r' s' rfl]
    rfl

theorem cursor_parseTraced (g : Grammar S C M) (t : Tree S C M) (r : Reader) (s : Segment S C M) :
    (g.parseTraced t r s).2.cursor = r.cursor := by
  rw [parseTraced_eq]
  rfl

/-- A call is made behind where the parse stands, and inside the input. -/
theorem climbs_call {g : Grammar S C M} {t : Tree S C M} {r : Reader} {n : Nat} {m : Int}
    {s : Segment S C M} (hr : (r.advance n).canRead m = true) (hm : 1 ≤ m)
    (h : (g.parseTraced t (r.advance (n + 1)) s).2.Climbs r.input.length) :
    ∀ d ∈ [(g.parseTraced t (r.advance (n + 1)) s).2],
      (r.cursor < d.cursor ∧ d.cursor ≤ r.input.length) ∧ d.Climbs r.input.length := by
  have hlen := of_decide_eq_true hr
  simp only [Reader.advance_cursor, Reader.advance_input] at hlen
  intro d hd
  obtain rfl := List.mem_singleton.mp hd
  rw [cursor_parseTraced, Reader.advance_cursor]
  exact ⟨⟨by omega, by omega⟩, h⟩

/-- One round over children makes its calls further on, if the calls further on climb. -/
theorem exploreTraced_climbs {g : Grammar S C M} {r : Reader} {s : Segment S C M}
    (ih : ∀ t' r' s', r'.ahead < r.ahead →
      (g.parseTraced t' r' s').2.Climbs r'.input.length) (cs : List (Tree S C M)) :
    ∀ d ∈ (g.exploreTraced cs r s).2,
      (r.cursor < d.cursor ∧ d.cursor ≤ r.input.length) ∧ d.Climbs r.input.length := by
  induction cs with
  | nil =>
    rw [exploreTraced]
    exact fun d hd => absurd hd List.not_mem_nil
  | cons c cs rest =>
    rw [exploreTraced]
    cases c.eligible s.frame r with
    | error f => exact fun d hd => absurd hd List.not_mem_nil
    | ok admitted =>
      cases admitted with
      | false => exact rest
      | true =>
        cases c.attempt r s with
        | error e => exact rest
        | ok matched =>
          obtain ⟨s', n⟩ := matched
          cases c.redirect with
          | some target =>
            dsimp only
            by_cases hr : (r.advance n).canRead 1 = true
            · have hcall := climbs_call hr (by decide) (ih (g.resolve target) (r.advance (n + 1))
                (.start s.frame.source (some target) (r.advance (n + 1)).cursor)
                (Reader.ahead_advance_lt hr (by decide)))
              rw [dif_pos hr]
              revert hcall
              rcases g.parseTraced (g.resolve target) _ _ with ⟨_ | _, call⟩ <;> exact id
            · rw [dif_neg hr]
              exact rest
          | none =>
            dsimp only
            by_cases hr : (r.advance n).canRead 2 = true
            · have hcall := climbs_call hr (by decide) (ih c (r.advance (n + 1)) s'
                (Reader.ahead_advance_lt hr (by decide)))
              rw [dif_pos hr]
              revert hcall
              rcases g.parseTraced c _ _ with ⟨f | p, call⟩
              · exact id
              · exact fun hcall => List.forall_mem_cons.mpr ⟨hcall call List.mem_cons_self, rest⟩
            · rw [dif_neg hr]
              exact rest

/-- Every call is made behind the one that it is made in, and inside the input. -/
theorem parseTraced_climbs (g : Grammar S C M) (t : Tree S C M) (r : Reader) (s : Segment S C M) :
    (g.parseTraced t r s).2.Climbs r.input.length := by
  generalize hm : r.ahead = m
  -- A child or a redirect is followed behind at least one byte, so less lies ahead of it.
  induction m using Nat.strongRecOn generalizing t r s with
  | ind m ih =>
    subst hm
    have hcalls := exploreTraced_climbs (s := s) (fun t' r' s' hlt => ih _ hlt t' r' s' rfl)
      (t.relevant r)
    rw [parseTraced_eq]
    exact .call (fun d hd => (hcalls d hd).1) fun d hd => (hcalls d hd).2

theorem length_of_relevant {t c : Tree S C M} {r : Reader} {s s' : Segment S C M} {n : Nat}
    (hc : c ∈ t.relevant r) (h : c.attempt r s = .ok (s', n)) :
    s'.frame.matched.length = s.frame.matched.length + 1 := by
  obtain ⟨m, hm⟩ := Tree.matched_of_relevant hc h
  rw [hm, List.length_append, List.length_singleton]

/-- A parse matches no more nodes than there are bytes ahead, and one. -/
theorem Reaches.matches_le {g : Grammar S C M} {t : Tree S C M} {r : Reader} {s : Segment S C M}
    {p : Parse S C M} (h : g.Reaches t r s p) :
    p.matches.length ≤ s.frame.matched.length + r.ahead + 1 := by
  induction h with
  | stop t r s errors =>
    rw [matches_single]
    omega
  | rest relevant _ matched _ =>
    have hone := length_of_relevant relevant matched
    rw [matches_single]
    omega
  | child relevant _ matched more _ _ ih =>
    have hone := length_of_relevant relevant matched
    have hlt := Reader.ahead_advance_lt more (by decide)
    omega
  | redirect relevant _ matched more _ _ ih =>
    have hone := length_of_relevant relevant matched
    have hlt := Reader.ahead_advance_lt more (by decide)
    have hnone : ∀ (source : S) (root : Option NodeId) (position : Int),
      (Segment.start source root position : Segment S C M).frame.matched.length = 0 :=
        fun _ _ _ => rfl
    rw [hnone] at ih
    rw [matches_under, List.length_append]
    omega

/-- Parsing makes progress, also where redirects lead in circles and nodes match nothing: recording
the calls leaves the outcome alone, every call begins behind the one that it is made in and inside
the input, and neither the depth of the calls nor the number of matched nodes exceeds the bytes
ahead and one. -/
theorem parse_descends (g : Grammar S C M) (source : S) (r : Reader) :
    (g.traced source r).1 = g.parse source r ∧ (g.traced source r).2.cursor = r.cursor ∧
      (g.traced source r).2.Climbs r.input.length ∧
      (g.traced source r).2.depth ≤ (r.input.length - r.cursor).toNat + 1 ∧
      ∀ p, g.parse source r = .ok p →
        p.matches.length ≤ (r.input.length - r.cursor).toNat + 1 := by
  have hcursor : (g.traced source r).2.cursor = r.cursor := g.cursor_parseTraced _ _ _
  have hclimbs : (g.traced source r).2.Climbs r.input.length := g.parseTraced_climbs _ _ _
  refine ⟨g.parseTraced_value _ _ _, hcursor, hclimbs, hcursor ▸ hclimbs.depth_le, ?_⟩
  intro p hp
  have hmatches := (reaches_of_parseAt hp).matches_le
  have hnone : (Segment.start source (some g.root.id) r.cursor : Segment S C M).frame.matched.length
      = 0 := rfl
  rw [hnone, Nat.zero_add] at hmatches
  exact hmatches

/-- A word, possibly empty, that leads back to where it stands. -/
def loop : Grammar Unit Unit Unit :=
  let root : Tree Unit Unit Unit := .node [0] (.ofKind .root)
    [.node [1] ⟨.argument (text "word") (BuiltIn.string .word).toArgumentType none, none, none, none,
      some [0], none, false⟩ []]
  ⟨root, fun _ => root⟩

/-- Two separators are three empty words, which is as deep as a parse of two bytes can go. -/
theorem parse_descends_loop :
    ∃ p, loop.parse () (.ofText (text "  ")) = .ok p ∧ p.matches.length = 3 ∧
      (loop.traced () (.ofText (text "  "))).2.depth = 3 ∧ p.matches.length ≤ 2 + 1 := by
  have h : (loop.parse () (.ofText (text "  "))).map (fun p => p.matches.length) = .ok 3 := by cbv
  obtain ⟨p, hp, hlength⟩ := map_eq_ok_iff.mp h
  have hbound := (parse_descends loop () (.ofText (text "  "))).2.2.2.2 p hp
  exact ⟨p, hp, hlength, by cbv, hbound⟩

end Grammar

end CommandTree
