import CommandTree.Proofs.Trail

/-!
One step of a parse. A node may be tried where its conditions hold; trying it at the end of a trail
succeeds exactly where the node stands and its token ends, and makes the trail one step longer.
-/

namespace CommandTree

namespace Tree

variable {S C M : Type}

/-- The source may use the node, and what was matched before it meets its condition with the reader
where the node is to stand. -/
structure Usable (t : Tree S C M) (f : Frame S) (r : Reader) : Prop where
  admitted : t.admits f.source = .ok true
  met : ∀ p, t.traits.contextRequirement = some p → p f r = .ok true

theorem eligible_iff {t : Tree S C M} {f : Frame S} {r : Reader} :
    t.eligible f r = .ok true ↔ t.Usable f r := by
  constructor
  · intro h
    unfold eligible at h
    split at h
    · rename_i ha
      split at h
      · rename_i hn
        exact ⟨ha, fun p hp => absurd (hn.symm.trans hp) (by simp)⟩
      · rename_i q hq
        exact ⟨ha, fun p hp => by obtain rfl := Option.some.inj (hq.symm.trans hp); exact h⟩
    · rename_i hne
      exact absurd h hne
  · rintro ⟨ha, hm⟩
    unfold eligible
    rw [ha]
    cases hq : t.traits.contextRequirement with
    | none => rfl
    | some p => exact hm p hq

/-- Only words and arguments among the children are ever tried. -/
theorem mem_relevant {t c : Tree S C M} {r : Reader} (h : c ∈ t.relevant r) :
    c ∈ t.children ∧ c.isRoot = false := by
  unfold relevant at h
  rcases List.mem_append.mp h with h | h
  · obtain ⟨hfound, hlit⟩ := Option.filter_eq_some_iff.mp (Option.mem_toList.mp h)
    refine ⟨List.mem_of_find?_eq_some hfound, ?_⟩
    simp only [isLiteral, isRoot] at hlit ⊢
    cases hk : c.traits.kind <;> simp [hk, Kind.isLiteral, Kind.isRoot] at hlit ⊢
  · obtain ⟨hmem, harg⟩ := List.mem_filter.mp h
    refine ⟨hmem, ?_⟩
    simp only [isArgument, isRoot] at harg ⊢
    cases hk : c.traits.kind <;> simp [hk, Kind.isArgument, Kind.isRoot] at harg ⊢

/-- A word covers its own text wherever it is the beginning of what lies ahead. -/
theorem covers_iff {input word : Text} {start : Int} (h0 : 0 ≤ start) :
    Span.get? ⟨start, start + word.length⟩ input = some word ↔
      start ≤ input.length ∧ word <+: input.drop start.toNat := by
  have hl : start + (word.length : Int) - start = word.length := by omega
  simp only [Span.get?, Text.slice?, Span.length, hl]
  by_cases hs : start ≤ input.length
  · have hn : ¬ ((word.length : Int) < 0) := by omega
    simp only [h0, hs, and_self, if_true, hn, if_false, Int.toNat_natCast, Option.some.injEq,
      true_and]
    rw [List.prefix_iff_eq_take, eq_comm]
  · simp [hs]

theorem wordAt_iff {word : Text} {r : Reader} (h0 : 0 ≤ r.cursor) :
    wordAt word r = true ↔
      Span.get? ⟨r.cursor, r.cursor + word.length⟩ r.input = some word ∧
        (r.advance word.length).atBoundary = true := by
  have hlen : word <+: r.rest → word.length ≤ r.input.length - r.cursor.toNat := by
    intro h
    simpa [Reader.rest] using h.length_le
  simp only [wordAt, covers_iff h0, Bool.and_eq_true, List.isPrefixOf_iff_prefix, Reader.canRead,
    decide_eq_true_eq]
  constructor
  · rintro ⟨⟨hc, hp⟩, hb⟩
    exact ⟨⟨by omega, hp⟩, hb⟩
  · rintro ⟨⟨hc, hp⟩, hb⟩
    have := hlen hp
    exact ⟨⟨by omega, hp⟩, hb⟩

theorem attempt_word_iff {c : Tree S C M} {word : Text} {r : Reader} {s s' : Segment S C M}
    {n : Nat} (h0 : 0 ≤ r.cursor) (hk : c.traits.kind = .literal word) :
    c.attempt r s = .ok (s', n) ↔
      n = word.length ∧ Span.get? ⟨r.cursor, r.cursor + word.length⟩ r.input = some word ∧
        (r.advance n).atBoundary = true ∧
        s' = { c.visit ⟨r.cursor, r.cursor + n⟩ s with command := c.command } := by
  unfold attempt accept
  rw [hk]
  by_cases hw : wordAt word r = true
  · obtain ⟨hcov, hbound⟩ := (wordAt_iff h0).mp hw
    simp only [hw, if_true, hbound, hcov, Except.ok.injEq, Prod.mk.injEq, true_and]
    constructor
    · rintro ⟨rfl, rfl⟩
      exact ⟨rfl, hbound, rfl⟩
    · rintro ⟨rfl, -, rfl⟩
      exact ⟨rfl, rfl⟩
  · simp only [hw, Reader.reject]
    refine iff_of_false (by simp) ?_
    rintro ⟨rfl, hcov, hbound, -⟩
    exact hw ((wordAt_iff h0).mpr ⟨hcov, hbound⟩)

theorem attempt_argument_iff {c : Tree S C M} {name : Text} {type : ArgumentType}
    {provider : Option (Provider S)} {r : Reader} {s s' : Segment S C M} {n : Nat}
    (hk : c.traits.kind = .argument name type provider) :
    c.attempt r s = .ok (s', n) ↔
      ∃ v, type.parse r = (.ok v, n) ∧ (r.advance n).atBoundary = true ∧
        s' = { c.visit ⟨r.cursor, r.cursor + n⟩
                { s with frame := s.frame.bind name ⟨⟨r.cursor, r.cursor + n⟩, v⟩ } with
              command := c.command } := by
  unfold attempt accept
  rw [hk]
  rcases hread : type.parse r with ⟨outcome, m⟩
  cases outcome with
  | error f =>
    refine iff_of_false ?_ (by simp)
    cases f <;> simp [hread]
  | ok v =>
    by_cases hbound : (r.advance m).atBoundary = true
    · simp only [hread, hbound, if_true, Except.ok.injEq, Prod.mk.injEq]
      constructor
      · rintro ⟨rfl, rfl⟩
        exact ⟨v, ⟨rfl, rfl⟩, hbound, rfl⟩
      · rintro ⟨v, ⟨rfl, rfl⟩, -, rfl⟩
        exact ⟨rfl, rfl⟩
    · simp only [hread, hbound, Except.ok.injEq, Prod.mk.injEq]
      refine iff_of_false (by simp) ?_
      rintro ⟨v, ⟨rfl, rfl⟩, hbound', -⟩
      exact hbound hbound'

/-- A node that matches was accepted, and its command replaces the one before. -/
theorem accept_of_attempt {c : Tree S C M} {r : Reader} {s s' : Segment S C M} {n : Nat}
    (h : c.attempt r s = .ok (s', n)) :
    ∃ s₁, c.accept r s = (.ok s₁, n) ∧ s' = { s₁ with command := c.command } := by
  unfold attempt at h
  split at h
  · rename_i s₁ m hacc
    split at h
    · obtain ⟨rfl, rfl⟩ := Prod.mk.inj (Except.ok.inj h)
      exact ⟨s₁, hacc, rfl⟩
    · cases h
  · cases h
  · cases h

/-- Matching a word or an argument appends the node to the frame, with the bytes that it passed over,
and changes nothing else of it but what is bound. -/
theorem frame_of_attempt {c : Tree S C M} {r : Reader} {s s' : Segment S C M} {n : Nat}
    (hc : c.isRoot = false) (h : c.attempt r s = .ok (s', n)) :
    s'.frame = { s.frame.push ⟨c.id, c.tag, ⟨r.cursor, r.cursor + n⟩⟩ with
      bindings := s'.frame.bindings } := by
  obtain ⟨s₁, hacc, rfl⟩ := accept_of_attempt h
  unfold accept at hacc
  cases hk : c.traits.kind with
  | root => simp [isRoot, hk, Kind.isRoot] at hc
  | literal word =>
    simp only [hk] at hacc
    by_cases hw : wordAt word r = true
    · rw [if_pos hw] at hacc
      obtain ⟨hs, rfl⟩ := Prod.mk.inj hacc
      obtain rfl := Except.ok.inj hs
      rfl
    · rw [if_neg hw] at hacc
      simp at hacc
  | argument name type provider =>
    simp only [hk] at hacc
    rcases hread : type.parse r with ⟨f | v, m⟩
    · simp [hread] at hacc
    · rw [hread] at hacc
      obtain ⟨hs, rfl⟩ := Prod.mk.inj hacc
      obtain rfl := Except.ok.inj hs
      rfl

/-- Matching a word or an argument records the node, and its command; the frame keeps its source and
its root. -/
theorem records_of_attempt {c : Tree S C M} {r : Reader} {s s' : Segment S C M} {n : Nat}
    (hc : c.isRoot = false) (h : c.attempt r s = .ok (s', n)) :
    s'.frame.source = s.frame.source ∧ s'.frame.root = s.frame.root ∧
      (∃ m, m.node = c.id ∧ s'.frame.matched = s.frame.matched ++ [m]) ∧
      s'.command = c.command := by
  have hframe := frame_of_attempt hc h
  refine ⟨by rw [hframe]; rfl, by rw [hframe]; rfl, ⟨_, rfl, by rw [hframe]; rfl⟩, ?_⟩
  obtain ⟨s₁, -, rfl⟩ := accept_of_attempt h
  rfl

theorem matched_of_attempt {c : Tree S C M} {r : Reader} {s s' : Segment S C M} {n : Nat}
    (hc : c.isRoot = false) (h : c.attempt r s = .ok (s', n)) :
    ∃ m, s'.frame.matched = s.frame.matched ++ [m] := by
  obtain ⟨-, -, ⟨m, -, hm⟩, -⟩ := records_of_attempt hc h
  exact ⟨m, hm⟩

theorem matched_of_relevant {t c : Tree S C M} {r : Reader} {s s' : Segment S C M} {n : Nat}
    (hc : c ∈ t.relevant r) (h : c.attempt r s = .ok (s', n)) :
    ∃ m, s'.frame.matched = s.frame.matched ++ [m] :=
  matched_of_attempt (mem_relevant hc).2 h

end Tree

namespace Trail

variable {S C M : Type}

/-- Steps go forwards, so the span of a trail reaches from its position to its last step. -/
theorem span_snoc {tr : Trail S C M} {st : Step S C M} (hp : tr.position ≤ tr.stop)
    (hs : tr.stop ≤ st.span.start) (hst : st.span.start ≤ st.span.stop) :
    tr.frame.span.union st.span = (tr.snoc st).frame.span := by
  simp only [frame, Span.union, position_snoc, stop_snoc, Span.mk.injEq]
  omega

/-- Visiting a node at the end of a trail leads to the trail with one more step. -/
theorem visit_segment {tr : Trail S C M} {st : Step S C M} (hp : tr.position ≤ tr.stop)
    (hs : tr.stop ≤ st.span.start) (hst : st.span.start ≤ st.span.stop) :
    { st.node.visit st.span { tr.segment with
        frame := { tr.frame with bindings := (tr.snoc st).bindings } } with
      command := st.node.command } = (tr.snoc st).segment := by
  have hspan := span_snoc hp hs hst
  simp only [Tree.visit, Frame.push, segment, last?_snoc, Option.bind_some, Option.map_some,
    Option.getD_some, Segment.mk.injEq, and_true, hspan]
  simp only [frame, Frame.mk.injEq, true_and, and_true]
  exact ⟨rfl, rfl, by simp [snoc, Step.toMatch]⟩

/-- Trying a word or an argument at the end of a trail: it has to stand there, and its token has to
end behind it. -/
theorem attempt_iff {tr : Trail S C M} {c : Tree S C M} {r : Reader} {s' : Segment S C M} {n : Nat}
    (h0 : 0 ≤ r.cursor) (hp : tr.position ≤ tr.stop) (hs : tr.stop ≤ r.cursor)
    (hc : c.isRoot = false) :
    c.attempt r tr.segment = .ok (s', n) ↔
      ∃ v, Step.Stands r.input ⟨c, ⟨r.cursor, r.cursor + n⟩, v⟩ ∧
        (r.advance n).atBoundary = true ∧
        s' = (tr.snoc ⟨c, ⟨r.cursor, r.cursor + n⟩, v⟩).segment := by
  have hle : ∀ n : Nat, r.cursor ≤ r.cursor + n := by omega
  cases hk : c.traits.kind with
  | root => simp [Tree.isRoot, hk, Kind.isRoot] at hc
  | literal word =>
    have hb : ∀ span, (tr.snoc ⟨c, span, none⟩).bindings = tr.bindings := by
      intro span
      rw [bindings_snoc]
      simp [Step.binding?]
    rw [Tree.attempt_word_iff h0 hk]
    constructor
    · rintro ⟨rfl, hcov, hbound, rfl⟩
      refine ⟨none, .word hk hcov, hbound, ?_⟩
      rw [← visit_segment hp hs (hle _), hb]
      rfl
    · rintro ⟨v, hst, hbound, rfl⟩
      obtain ⟨hn, rfl, hcov⟩ := hst.word_inv hk
      obtain rfl : n = word.length := by omega
      refine ⟨rfl, hcov, hbound, ?_⟩
      rw [← visit_segment hp hs (hle _), hb]
      rfl
  | argument name type provider =>
    have hb : ∀ span v, (tr.snoc ⟨c, span, some v⟩).bindings =
        tr.bindings.insert name ⟨span, v⟩ := by
      intro span v
      rw [bindings_snoc]
      simp [Step.binding?, hk]
    rw [Tree.attempt_argument_iff hk]
    constructor
    · rintro ⟨v, hread, hbound, rfl⟩
      refine ⟨some v, .argument hk hread, hbound, ?_⟩
      rw [← visit_segment hp hs (hle _), hb]
      rfl
    · rintro ⟨v, hst, hbound, rfl⟩
      obtain ⟨v, m, hm, rfl, hread⟩ := hst.argument_inv hk
      obtain rfl : n = m := by omega
      refine ⟨v, hread, hbound, ?_⟩
      rw [← visit_segment hp hs (hle _), hb]
      rfl

end Trail

end CommandTree
