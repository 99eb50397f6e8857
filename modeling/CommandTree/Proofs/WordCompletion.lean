import CommandTree.Proofs.Calls
import CommandTree.Proofs.Traversal
import CommandTree.Proofs.Words

/-!
Completing a line in a grammar of words. The place of a cursor is below the node that the words before
it lead to, so the completions are the children that go on from what is left. Main statement: these
children are suggested, and no others; every suggestion makes a line that the parse matches to the
end; and each word of a line is suggested wherever the line is cut inside it.
-/

namespace CommandTree

variable {S C M : Type}

namespace Place

/-- Matches that end before the cursor only move the place along. -/
theorem within_append (start cursor : Int) (root : Option NodeId) (ms ms' : List Match)
    (h : ∀ m ∈ ms, m.span.stop < cursor) :
    within start cursor root (ms ++ ms') =
      within start cursor ((ms.getLast?.map Match.node).or root) ms' := by
  induction ms generalizing root with
  | nil => rfl
  | cons m ms ih =>
    have hm := h m List.mem_cons_self
    have hpast : ¬ (m.span.start ≤ cursor ∧ cursor ≤ m.span.stop) := by omega
    rw [List.cons_append, within, if_neg hpast, ih _ fun m' hm' => h m' (List.mem_cons_of_mem m hm'),
      List.getLast?_cons]
    cases ms.getLast? <;> rfl

theorem locate_within {cursor : Int} {s : Segment S C M} (hstart : s.frame.span.start ≤ cursor)
    (hstop : cursor ≤ s.frame.span.stop) (later : List (Segment S C M)) :
    locate cursor s later = within s.frame.span.start cursor s.frame.root s.frame.matched := by
  cases later <;> rw [locate, if_neg (by omega), if_neg (by omega)]

end Place

namespace Segment

/-- A segment came out of another one by matching more nodes. -/
structure Grows (s s' : Segment S C M) : Prop where
  root : s'.frame.root = s.frame.root
  matched : s.frame.matched <+: s'.frame.matched
  start_le : s'.frame.span.start ≤ s.frame.span.start
  le_stop : s.frame.span.stop ≤ s'.frame.span.stop

theorem Grows.refl (s : Segment S C M) : s.Grows s :=
  ⟨rfl, List.prefix_rfl, Int.le_refl _, Int.le_refl _⟩

theorem Grows.trans {s s' s'' : Segment S C M} (h : s.Grows s') (h' : s'.Grows s'') :
    s.Grows s'' :=
  ⟨h'.root.trans h.root, h.matched.trans h'.matched, h'.start_le.trans h.start_le,
    h.le_stop.trans h'.le_stop⟩

theorem grows_enter (c : Tree S C M) (r : Reader) (s : Segment S C M) : s.Grows (c.enter r s) where
  root := rfl
  matched := List.prefix_append _ _
  start_le := Int.min_le_left _ _
  le_stop := Int.le_max_left _ _

/-- The segment waits at a position for a token that is to be looked up below a node. -/
structure Awaits (s : Segment S C M) (i : NodeId) (position : Int) : Prop where
  behind : Place.behind s = ⟨some i, position⟩
  start_le : s.frame.span.start ≤ position
  past : ∀ m ∈ s.frame.matched, m.span.stop < position
  stop : s.frame.span.stop < position ∨
    s.frame.matched = [] ∧ s.frame.root = some i ∧ s.frame.span = .point position

variable {s : Segment S C M} {i : NodeId} {position : Int}

theorem Awaits.parent (h : s.Awaits i position) :
    (s.frame.matched.getLast?.map Match.node).or s.frame.root = some i := by
  have hb := congrArg Place.parent h.behind
  unfold Place.behind at hb
  cases hl : s.frame.matched.getLast? with
  | none => simpa [hl] using hb
  | some m => simpa [hl] using hb

theorem Awaits.stop_le (h : s.Awaits i position) : s.frame.span.stop ≤ position := by
  rcases h.stop with hs | ⟨-, -, hs⟩
  · omega
  · rw [hs]
    exact Int.le_refl position

theorem awaits_start (source : S) (i : NodeId) (position : Int) :
    (start source (some i) position : Segment S C M).Awaits i position where
  behind := rfl
  start_le := Int.le_refl position
  past := fun _ hm => absurd hm List.not_mem_nil
  stop := .inr ⟨rfl, rfl, rfl⟩

/-- Behind a matched node the segment waits for what is to come below it. -/
theorem Awaits.enter {r : Reader} (h : s.Awaits i r.cursor) (c : Tree S C M) :
    (c.enter r s).Awaits c.id (r.advance (c.name.length + 1)).cursor := by
  have hstop := h.stop_le
  have hstart := h.start_le
  have hspan : (c.enter r s).frame.span =
      s.frame.span.union ⟨r.cursor, r.cursor + c.name.length⟩ := rfl
  have hmatched : (c.enter r s).frame.matched = s.frame.matched ++ [c.matchAt r.cursor] := rfl
  refine ⟨?_, ?_, fun m hm => ?_, .inl ?_⟩
  · rw [Place.behind, hmatched, List.getLast?_append]
    simp only [List.getLast?_singleton, Option.some_or, Tree.matchAt, Reader.advance_cursor,
      Place.mk.injEq, true_and]
    omega
  · rw [hspan, Reader.advance_cursor, Span.union]
    dsimp only
    omega
  · rw [Reader.advance_cursor]
    rcases List.mem_append.mp (hmatched ▸ hm) with hm | hm
    · have := h.past m hm
      omega
    · obtain rfl := List.mem_singleton.mp hm
      simp only [Tree.matchAt]
      omega
  · rw [hspan, Reader.advance_cursor, Span.union]
    dsimp only
    omega

/-- The place of a cursor that no match touches. -/
theorem Awaits.locate {cursor : Int} (h : s.Awaits i position) (hc : position ≤ cursor) :
    Place.locate cursor s [] = .ok ⟨some i, position⟩ := by
  have hstart := h.start_le
  rw [Place.locate, if_neg (by omega)]
  split_ifs with hstop
  · rw [h.behind]
  · rcases h.stop with hs | ⟨hnone, hroot, hspan⟩
    · omega
    · rw [hspan] at hstop ⊢
      simp only [Span.point] at hstop ⊢
      rw [hnone, hroot, Place.within]

/-- The place of a cursor that a node touches, whatever was matched behind it. -/
theorem Awaits.locate_enter {r : Reader} {c : Tree S C M} {chain : Chain S C M} {cursor : Int}
    (h : s.Awaits i r.cursor) (hgrows : (c.enter r s).Grows chain.first) (hc : r.cursor ≤ cursor)
    (hc' : cursor ≤ r.cursor + c.name.length) : chain.locate cursor = .ok ⟨some i, r.cursor⟩ := by
  obtain ⟨more, hmore⟩ := hgrows.matched
  have hmatched : chain.first.frame.matched =
      s.frame.matched ++ (c.matchAt r.cursor :: more) := by
    rw [← hmore, List.append_cons]
    rfl
  have hstart := hgrows.start_le.trans ((grows_enter c r s).start_le.trans h.start_le)
  have hstop : r.cursor + c.name.length ≤ chain.first.frame.span.stop :=
    (Int.le_max_right s.frame.span.stop _).trans hgrows.le_stop
  rw [Chain.locate, Place.locate_within (hstart.trans hc) (hc'.trans hstop), hgrows.root, hmatched,
    Place.within_append _ _ _ _ _ fun m hm => Int.lt_of_lt_of_le (h.past m hm) hc]
  change Place.within _ _ ((s.frame.matched.getLast?.map Match.node).or s.frame.root) _ = _
  rw [h.parent, Place.within, if_pos ⟨hc, hc'⟩]
  rfl

end Segment

namespace Grammar

variable {g : Grammar S C M}

/-- The parse of a line below a node comes to rest: the words before a cursor lead to a node, and the
place of the cursor is behind them, below that node. -/
def Halts (g : Grammar S C M) (source : S) (t : Tree S C M) (r : Reader) (cursor : Int)
    (p : Parse S C M) : Prop :=
  ∃ ws u rem j, g.Leads source t ws u ∧ r.rest.take (cursor - r.cursor).toNat = spell ws ++ rem ∧
    Ends source u rem ∧ g.resolve j = u ∧
    p.chain.locate cursor = .ok ⟨some j, r.cursor + (spell ws).length⟩

theorem Walk.keeps {t : Tree S C M} {r : Reader} {s : Segment S C M}
    {x : Except Fault (Parse S C M)} {p : Parse S C M} (h : g.Walk t r s x) (hp : x = .ok p) :
    p.reader.input = r.input ∧ p.chain.first.frame.source = s.frame.source := by
  induction h generalizing p with
  | refused => cases hp
  | stuck | last | blank => cases hp; exact ⟨rfl, rfl⟩
  | child _ _ _ _ _ _ ih => exact ih hp
  | redirect _ _ _ _ _ ih =>
    obtain ⟨q, hq, rfl⟩ := map_eq_ok_iff.mp hp
    exact ⟨(ih hq).1, rfl⟩

theorem Walk.grows {t : Tree S C M} {r : Reader} {s : Segment S C M}
    {x : Except Fault (Parse S C M)} {p : Parse S C M} (h : g.Walk t r s x) (hp : x = .ok p) :
    s.Grows p.chain.first := by
  induction h generalizing p with
  | refused => cases hp
  | stuck => cases hp; exact .refl _
  | last | blank => cases hp; exact Segment.grows_enter _ _ _
  | child _ _ _ _ _ _ ih => exact (Segment.grows_enter _ _ _).trans (ih hp)
  | redirect _ _ _ _ _ ih =>
    obtain ⟨q, hq, rfl⟩ := map_eq_ok_iff.mp hp
    exact Segment.grows_enter _ _ _

/-- The cursor is inside the first word, or at one of its ends. -/
theorem halts_inside {t c : Tree S C M} {r : Reader} {s : Segment S C M} {tail : Text}
    {p : Parse S C M} {i : NodeId} {cursor : Int} (hword : c.IsWord) (hs : s.Awaits i r.cursor)
    (hi : g.resolve i = t) (ahead : r.rest = c.name ++ tail)
    (hgrows : (c.enter r s).Grows p.chain.first) (hk : r.cursor ≤ cursor)
    (hk' : cursor ≤ r.cursor + c.name.length) : g.Halts s.frame.source t r cursor p := by
  have hcut : r.rest.take (cursor - r.cursor).toNat = c.name.take (cursor - r.cursor).toNat := by
    rw [ahead, List.take_append_of_le_length (by omega)]
  refine ⟨[], t, _, i, .here t, rfl, .inl fun hsep => ?_, hi, ?_⟩
  · rw [hcut] at hsep
    exact hword.spaceless (List.mem_of_mem_take hsep)
  · simpa using hs.locate_enter hgrows hk hk'

/-- The cursor is behind the first word and the separator. -/
theorem Halts.beyond {source : S} {t c : Tree S C M} {r : Reader} {more : Text}
    {p : Parse S C M} {cursor : Int} (h0 : 0 ≤ r.cursor) (mem : c ∈ t.children)
    (admitted : c.admits source = .ok true) (ahead : r.rest = c.name ++ separator :: more)
    (hk : r.cursor + c.name.length < cursor)
    (h : g.Halts source (g.beyond c) (r.advance (c.name.length + 1)) cursor p) :
    g.Halts source t r cursor p := by
  obtain ⟨ws, u, rem, j, hleads, hrest, hends, hj, hplace⟩ := h
  rw [rest_behind h0 ahead, Reader.advance_cursor] at hrest
  have hcount : (cursor - r.cursor).toNat =
      (c.name ++ [separator]).length + (cursor - (r.cursor + (c.name.length + 1 : Nat))).toNat := by
    rw [List.length_append, List.length_singleton]
    omega
  refine ⟨c.name :: ws, u, rem, j, .word mem admitted hleads, ?_, hends, hj, ?_⟩
  · rw [ahead, List.append_cons, hcount, List.take_length_add_append, hrest, spell_cons]
    simp
  · rw [hplace, spell_cons, Reader.advance_cursor, List.length_append, List.length_cons]
    congr 2
    omega

/-- A frame that ends before the cursor leaves it to the frames behind it. -/
theorem locate_under {s : Segment S C M} {p : Parse S C M} {cursor : Int}
    (hstart : s.frame.span.start ≤ cursor) (hstop : s.frame.span.stop < cursor) :
    (p.under s).chain.locate cursor = p.chain.locate cursor := by
  rw [Chain.locate, Chain.locate]
  change Place.locate cursor s (p.chain.first :: p.chain.later) = _
  rw [Place.locate, if_neg (by omega), if_pos hstop]

theorem Halts.under {source : S} {t : Tree S C M} {r : Reader} {s : Segment S C M}
    {p : Parse S C M} {cursor : Int} (h : g.Halts source t r cursor p)
    (hstart : s.frame.span.start ≤ cursor) (hstop : s.frame.span.stop < cursor) :
    g.Halts source t r cursor (p.under s) := by
  obtain ⟨ws, u, rem, j, hleads, hrest, hends, hj, hplace⟩ := h
  exact ⟨ws, u, rem, j, hleads, hrest, hends, hj, (locate_under hstart hstop).trans hplace⟩

/-- Every parse in a grammar of words comes to rest so, wherever the cursor is. -/
theorem Walk.halts (hw : g.OfWords) (hc : g.Coherent) {t : Tree S C M} {r : Reader}
    {s : Segment S C M} {x : Except Fault (Parse S C M)} {p : Parse S C M} {i : NodeId}
    {cursor : Int} (h : g.Walk t r s x) (ht : g.Reachable t) (h0 : 0 ≤ r.cursor)
    (hk : r.cursor ≤ cursor) (hl : cursor ≤ r.input.length) (hs : s.Awaits i r.cursor)
    (hi : g.resolve i = t) (hp : x = .ok p) : g.Halts s.frame.source t r cursor p := by
  induction h generalizing p i with
  | refused => cases hp
  | @stuck t r s unknown =>
    cases hp
    refine ⟨[], t, _, i, .here t, rfl, ?_, hi, by simpa [Chain.locate] using hs.locate hk⟩
    by_cases hsep : separator ∈ r.rest.take (cursor - r.cursor).toNat
    · exact .inr fun c mem hname => unknown c mem (hname.trans (Text.token_take hsep))
    · exact .inl hsep
  | @last t c r s mem admitted ahead =>
    cases hp
    have hlen := Reader.length_rest h0 (hk.trans hl)
    rw [ahead] at hlen
    exact halts_inside (hw t ht c mem) hs hi (ahead.trans (List.append_nil _).symm) (.refl _) hk
      (by omega)
  -- A cursor that touches the word is placed before it, whatever the frame goes on with; any other
  -- cursor is behind the separator, where the walk goes on.
  | @blank t c r s mem admitted ahead direct =>
    cases hp
    by_cases hinside : cursor ≤ r.cursor + c.name.length
    · exact halts_inside (hw t ht c mem) hs hi ahead (.refl _) hk hinside
    · have hnext : (r.advance (c.name.length + 1)).cursor ≤ cursor := by
        rw [Reader.advance_cursor]; omega
      refine .beyond h0 mem admitted ahead (by omega) ?_
      rw [beyond_direct direct]
      refine ⟨[], c, [], c.id, .here c, ?_, .inl List.not_mem_nil, hc c (ht.child mem), ?_⟩
      · rw [rest_behind h0 ahead, List.take_nil]
        rfl
      · simpa [Chain.locate] using (hs.enter c).locate hnext
  | @child t c r s more x mem admitted ahead _ direct below ih =>
    by_cases hinside : cursor ≤ r.cursor + c.name.length
    · exact halts_inside (hw t ht c mem) hs hi ahead (below.grows hp) hk hinside
    · have hnext : (r.advance (c.name.length + 1)).cursor ≤ cursor := by
        rw [Reader.advance_cursor]; omega
      have hchild := ht.child mem
      have h0' : 0 ≤ (r.advance (c.name.length + 1)).cursor := by rw [Reader.advance_cursor]; omega
      refine .beyond h0 mem admitted ahead (by omega) ?_
      rw [beyond_direct direct]
      exact ih hchild h0' hnext hl (hs.enter c) (hc c hchild) hp
  | @redirect t c r s more target x mem admitted ahead leads _ ih =>
    obtain ⟨q, hq, rfl⟩ := map_eq_ok_iff.mp hp
    by_cases hinside : cursor ≤ r.cursor + c.name.length
    · exact halts_inside (hw t ht c mem) hs hi ahead (.refl _) hk hinside
    · have hnext : (r.advance (c.name.length + 1)).cursor ≤ cursor := by
        rw [Reader.advance_cursor]; omega
      have h0' : 0 ≤ (r.advance (c.name.length + 1)).cursor := by rw [Reader.advance_cursor]; omega
      have hhalts := ih ((ht.child mem).redirect leads) h0' hnext hl (Segment.awaits_start _ _ _)
        rfl hq
      -- The frame that the redirect leaves holds a match, so it ends before the separator.
      have hentered := hs.enter c
      have hstart := hentered.start_le
      have hstop : (c.enter r s).frame.span.stop < (r.advance (c.name.length + 1)).cursor := by
        rcases hentered.stop with hstop | ⟨hnone, -⟩
        · exact hstop
        · simp [Tree.enter, Tree.visit, Frame.push] at hnone
      refine .beyond h0 mem admitted ahead (by omega) ?_
      rw [beyond_redirect leads]
      exact hhalts.under (by omega) (by omega)

end Grammar

/-! Suggestions of one span -/

namespace Suggestion

theorem distinct_of_nodup {ss : List Suggestion} (h : (ss.map text).Nodup) : distinct ss = ss := by
  induction ss with
  | nil => rfl
  | cons s ss ih =>
    obtain ⟨hs, hss⟩ := List.nodup_cons.mp h
    rw [distinct, ih hss]
    refine congrArg (s :: ·) (List.filter_eq_self.mpr fun t ht => ?_)
    have hne : t.text ≠ s.text := fun heq => hs (heq ▸ List.mem_map_of_mem ht)
    simpa using hne

theorem hull_of_span {span : Span} {s : Suggestion} {rest : List Suggestion}
    (h : ∀ t ∈ s :: rest, t.span = span) : hull s rest = span := by
  obtain ⟨hs, hrest⟩ := List.forall_mem_cons.mp h
  rw [hull, hs]
  clear h hs
  induction rest with
  | nil => rfl
  | cons t rest ih =>
    obtain ⟨ht, hrest⟩ := List.forall_mem_cons.mp hrest
    rw [List.foldl_cons, ht, Span.union_self]
    exact ih hrest

theorem mapM_widen_of_span {command : Text} {span : Span} {ss : List Suggestion}
    (h : ∀ s ∈ ss, s.span = span) : ss.mapM (widen command span) = .ok ss := by
  have hself : ss.mapM (widen command span) = .ok (ss.map fun s => s) :=
    mapM_eq_ok_map fun s hs => if_pos (h s hs).symm
  rwa [List.map_id'] at hself

end Suggestion

namespace Suggestions

/-- Suggestions of one span and with different texts are only put in order. -/
theorem create_perm (command : Text) {span : Span} {ss : List Suggestion}
    (hspan : ∀ s ∈ ss, s.span = span) (htexts : (ss.map Suggestion.text).Nodup) :
    ∃ all, create command ss = .ok all ∧ all.list.Perm ss := by
  cases ss with
  | nil => exact ⟨empty, rfl, .nil⟩
  | cons s rest =>
    rw [create, Suggestion.hull_of_span hspan, Suggestion.mapM_widen_of_span hspan]
    refine ⟨_, rfl, ?_⟩
    rw [Suggestion.distinct_of_nodup htexts]
    exact List.mergeSort_perm _ _

theorem create_singleton (command : Text) (s : Suggestion) :
    create command [s] = .ok ⟨s.span, [s]⟩ := by
  have hspan : ∀ t ∈ [s], t.span = s.span := by simp
  rw [create, Suggestion.hull_of_span hspan, Suggestion.mapM_widen_of_span hspan]
  simp [bind, Except.bind, Suggestion.distinct]

theorem merge_perm (command : Text) {span : Span} {lists : List Suggestions}
    (hspan : ∀ s ∈ lists.flatMap list, s.span = span)
    (htexts : ((lists.flatMap list).map Suggestion.text).Nodup) :
    ∃ all, merge command lists = .ok all ∧ all.list.Perm (lists.flatMap list) := by
  match lists with
  | [] => exact ⟨empty, rfl, .nil⟩
  | [s] => exact ⟨s, rfl, by simp⟩
  | s :: t :: rest => exact create_perm command hspan htexts

/-- Suggestions of one span are brought together without a look at the command. -/
theorem merge_of_span (command command' : Text) {span : Span} {lists : List Suggestions}
    (hspan : ∀ s ∈ lists.flatMap list, s.span = span) : merge command lists = merge command' lists := by
  match lists with
  | [] | [_] => rfl
  | s :: t :: rest =>
    show create command _ = create command' _
    generalize (s :: t :: rest).flatMap list = ss at hspan
    cases ss with
    | nil => rfl
    | cons s rest =>
      rw [create, create, Suggestion.hull_of_span hspan, Suggestion.mapM_widen_of_span hspan,
        Suggestion.mapM_widen_of_span hspan]

end Suggestions

/-! What the children of a node suggest -/

/-- A word goes on from what was typed, in whatever case, and is not just that. -/
def Text.Continues (typed word : Text) : Prop := typed.lower <+: word.lower ∧ word ≠ typed

instance (typed word : Text) : Decidable (typed.Continues word) :=
  inferInstanceAs (Decidable (_ ∧ _))

/-- A word goes on from whatever it begins with. -/
theorem Text.continues_take {word : Text} {n : Nat} (h : n < word.length) :
    Text.Continues (word.take n) word := by
  refine ⟨?_, fun heq => ?_⟩
  · rw [lower, List.map_take]
    exact List.take_prefix _ _
  · have hlen := congrArg List.length heq
    rw [List.length_take] at hlen
    omega

/-- The draft for the token that begins at a position, before any suggestion. -/
def Draft.blank (input : Text) (start : Nat) : Draft := ⟨input, input.lower, start, []⟩

theorem Draft.ofInput_blank {input : Text} {start : Nat} (h : start ≤ input.length) :
    Draft.ofInput input start = .ok (.blank input start) := by
  rw [Draft.ofInput, Draft.openAt, if_pos (by rw [Text.length_lower]; omega)]
  rfl

/-- The suggestion of a word for all that was typed from a position on. -/
def Suggestion.proposal (input : Text) (start : Nat) (word : Text) : Suggestion :=
  .ofText ⟨start, input.length⟩ word none

namespace Grammar

/-- Whether a source may use a node, not if asking for that fails. -/
def welcomes (source : S) (c : Tree S C M) : Bool :=
  match c.admits source with
  | .ok admitted => admitted
  | .error _ => false

theorem welcomes_iff {source : S} {c : Tree S C M} :
    welcomes source c = true ↔ c.admits source = .ok true := by
  unfold welcomes
  rcases c.admits source with f | ⟨_ | _⟩ <;> simp

theorem invited_eq (source : S) (d : Draft) (cs : List (Tree S C M)) :
    (∃ f, invited source (.ok d) cs = .error f ∧ ∃ c ∈ cs, c.admits source = .error f) ∨
      invited source (.ok d) cs = .ok ((cs.filter (welcomes source)).map (·, d)) := by
  induction cs with
  | nil => exact .inr rfl
  | cons c cs ih =>
    rcases hc : c.admits source with f | ⟨_ | _⟩
    · exact .inl ⟨f, by simp only [invited, hc], c, List.mem_cons_self, hc⟩
    · rcases ih with ⟨f, hf, c', hc', hfails⟩ | hok
      · exact .inl ⟨f, by simp only [invited, hc, hf], c', List.mem_cons_of_mem c hc', hfails⟩
      · exact .inr (by simp [invited, hc, hok, welcomes])
    · rcases ih with ⟨f, hf, c', hc', hfails⟩ | hok
      · exact .inl ⟨f, by simp only [invited, hc, hf, Except.map], c', List.mem_cons_of_mem c hc',
          hfails⟩
      · exact .inr (by simp [invited, hc, hok, welcomes, Except.map])

/-- A word suggests itself where it goes on from what was typed. -/
def proposals (typed : Text) (start : Nat) (c : Tree S C M) : Suggestions :=
  if Text.Continues (typed.drop start) c.name then
    ⟨⟨start, typed.length⟩, [.proposal typed start c.name]⟩
  else .empty

theorem offer_word {c : Tree S C M} (h : c.IsWord) (context : Context S) (typed : Text)
    (start : Nat) : offer context c (.blank typed start) = .ok (proposals typed start c) := by
  have hlower : (Draft.blank typed start).remainingLower = Text.lower (typed.drop start) :=
    (List.map_drop ..).symm
  have hone : ((Draft.blank typed start).suggest c.name none).build =
      .ok (if c.name = typed.drop start then .empty
        else ⟨⟨start, typed.length⟩, [.proposal typed start c.name]⟩) := by
    rw [Draft.suggest]
    change Draft.build (if c.name = typed.drop start then _ else _) = _
    split_ifs
    · rfl
    · exact Suggestions.create_singleton typed (.proposal typed start c.name)
  have hsuggest : c.suggest context (.blank typed start) =
      if (Text.lower (typed.drop start)).isPrefixOf c.name.lower then
        ((Draft.blank typed start).suggest c.name none).build else .ok .empty := by
    rw [Tree.suggest, h.kind, ← hlower]
  rw [offer, hsuggest, hone, proposals]
  by_cases hp : Text.lower (typed.drop start) <+: c.name.lower
  · by_cases hne : c.name = typed.drop start <;> simp [hp, hne, Text.Continues]
  · simp [hp, Text.Continues]

/-- The suggestions of words are theirs, whatever was matched before. -/
theorem offers_words {cs : List (Tree S C M)} (h : ∀ c ∈ cs, c.IsWord) (context : Context S)
    (typed : Text) (start : Nat) :
    offers context (cs.map (·, .blank typed start)) = .ok (cs.map (proposals typed start)) := by
  induction cs with
  | nil => rfl
  | cons c cs ih =>
    obtain ⟨hc, hcs⟩ := List.forall_mem_cons.mp h
    rw [List.map_cons, offers, offer_word hc, ih hcs]
    rfl

theorem flatMap_proposals (typed : Text) (start : Nat) (cs : List (Tree S C M)) :
    (cs.map (proposals typed start)).flatMap Suggestions.list =
      (cs.filter fun c => Text.Continues (typed.drop start) c.name).map fun c =>
        .proposal typed start c.name := by
  induction cs with
  | nil => rfl
  | cons c cs ih =>
    by_cases hp : Text.Continues (typed.drop start) c.name <;>
      simp [hp, ih, proposals, Suggestions.empty]

theorem span_of_proposals {typed : Text} {start : Nat} {cs : List (Tree S C M)} {s : Suggestion}
    (hs : s ∈ (cs.map (proposals typed start)).flatMap Suggestions.list) :
    s.span = ⟨start, typed.length⟩ := by
  rw [flatMap_proposals] at hs
  obtain ⟨c, -, rfl⟩ := List.mem_map.mp hs
  rfl

/-- Where the place of the cursor is known, its children are asked and their lists are merged. -/
theorem complete_of_place {g : Grammar S C M} {p : Parse S C M} {cursor : Int} {place : Place}
    (h : p.chain.locate cursor = .ok place) :
    g.complete p cursor =
      ((invited p.chain.first.frame.source
          (Draft.ofInput (p.reader.input.first cursor) (min place.start cursor))
          ((place.parent.map fun i => (g.resolve i).children).getD [])).bind
        (offers (p.chain.first.context (p.reader.input.first cursor)))).bind
      (Suggestions.merge p.reader.input) := by
  rw [complete, h]
  simp only [bind, Except.bind]
  cases invited _ _ _ <;> rfl

variable {g : Grammar S C M} {p : Parse S C M} {i : NodeId} {start : Nat} {source : S}
  {input : Text}

/-- Completing at a cursor whose place is known. -/
theorem complete_eq {k : Nat} (hinput : p.reader.input = input)
    (hsource : p.chain.first.frame.source = source)
    (hplace : p.chain.locate k = .ok ⟨some i, start⟩) (hstart : start ≤ k) (hk : k ≤ input.length) :
    g.complete p k =
      ((invited source (.ok (.blank (input.take k) start)) (g.resolve i).children).bind
        (offers (p.chain.first.context (input.take k)))).bind (Suggestions.merge input) := by
  have htyped : input.first k = input.take k := by
    rw [Text.first, if_neg (by omega), Int.toNat_natCast]
  have hmin : min (start : Int) k = start := by omega
  have hlen : start ≤ (input.take k).length := by
    rw [List.length_take]
    omega
  rw [complete_of_place hplace, hinput, htyped, hmin, Draft.ofInput_blank hlen, hsource]
  rfl

/-- The completions of a token that begins at a position, below a node of words. -/
def completedWords (source : S) (u : Tree S C M) (typed : Text) (start : Nat) :
    Except Fault Suggestions :=
  (invited source (.ok (.blank typed start)) u.children).bind fun guests =>
    Suggestions.merge typed (guests.map fun guest => proposals typed start guest.1)

/-- Where the place is below a node of words, nothing but the words and what was typed before the
cursor counts. -/
theorem complete_words {k : Nat} (hinput : p.reader.input = input)
    (hsource : p.chain.first.frame.source = source)
    (hplace : p.chain.locate k = .ok ⟨some i, start⟩) (hstart : start ≤ k) (hk : k ≤ input.length)
    (hwords : ∀ c ∈ (g.resolve i).children, c.IsWord) :
    g.complete p k = completedWords source (g.resolve i) (input.take k) start := by
  rw [complete_eq hinput hsource hplace hstart hk, completedWords]
  rcases invited_eq source (.blank (input.take k) start) (g.resolve i).children with
    ⟨f, hf, -⟩ | hok
  · rw [hf]
    rfl
  · rw [hok]
    simp only [Except.bind, List.map_map]
    rw [offers_words fun c hc => hwords c (List.mem_of_mem_filter hc)]
    exact Suggestions.merge_of_span _ _ fun _ => span_of_proposals

/-- Completing below a node of words: either a requirement fails, or the children that the source may
use and that go on from what was typed are suggested. -/
theorem completedWords_cases (source : S) {u : Tree S C M} (typed : Text) (start : Nat)
    (hnames : (u.children.map Tree.name).Nodup) :
    (∃ f, completedWords source u typed start = .error f ∧
      ∃ c ∈ u.children, c.admits source = .error f) ∨
    ∃ all, completedWords source u typed start = .ok all ∧
      all.list.Perm (((u.children.filter (welcomes source)).filter fun c =>
          Text.Continues (typed.drop start) c.name).map fun c => .proposal typed start c.name) := by
  unfold completedWords
  rcases invited_eq source (.blank typed start) u.children with ⟨f, hf, hfails⟩ | hok
  · exact .inl ⟨f, by rw [hf]; rfl, hfails⟩
  · have hflat := flatMap_proposals typed start (u.children.filter (welcomes source))
    have htexts : (((u.children.filter (welcomes source)).map (proposals typed start)).flatMap
        Suggestions.list |>.map Suggestion.text).Nodup := by
      rw [hflat, List.map_map]
      exact hnames.sublist ((List.filter_sublist.trans List.filter_sublist).map _)
    obtain ⟨all, hall, hperm⟩ :=
      Suggestions.merge_perm typed (fun _ => span_of_proposals) htexts
    refine .inr ⟨all, ?_, hflat ▸ hperm⟩
    rw [hok]
    simp only [Except.bind, List.map_map]
    exact hall

/-! Completions of an input -/

/-- The completions at the end of an input. -/
def completions (g : Grammar S C M) (source : S) (input : Text) : Except Fault Suggestions :=
  (g.parse source (.ofText input)).bind fun p => g.complete p input.length

/-- How completions come about: words lead from the root to a node, the end of the input is in the
token behind them, and the children that go on from it are suggested. -/
structure Completes (g : Grammar S C M) (source : S) (input : Text) (ws : List Text)
    (u : Tree S C M) (rem : Text) (all : Suggestions) : Prop where
  split : input = spell ws ++ rem
  leads : g.Leads source g.root ws u
  ends : Ends source u rem
  place : ∃ p i, g.parse source (.ofText input) = .ok p ∧
    p.chain.locate input.length = .ok ⟨some i, (spell ws).length⟩ ∧ g.resolve i = u
  list : all.list.Perm (((u.children.filter (welcomes source)).filter fun c =>
    rem.Continues c.name).map fun c => .proposal input (spell ws).length c.name)

theorem parse_walk (hw : g.OfWords) (hn : g.NamesDistinct) (source : S) (input : Text) :
    g.Walk g.root (.ofText input) (.start source (some g.root.id) 0)
      (g.parse source (.ofText input)) :=
  walk_parseAt hw hn .root (Int.le_refl 0) (Int.natCast_nonneg _) _

/-- The words before a cursor lead to the node below which the cursor is. -/
theorem parse_halts (hw : g.OfWords) (hn : g.NamesDistinct) (hc : g.Coherent)
    (hp : g.parse source (.ofText input) = .ok p) {k : Nat} (hk : k ≤ input.length) :
    ∃ ws u rem j, g.Leads source g.root ws u ∧ input.take k = spell ws ++ rem ∧
      Ends source u rem ∧ g.resolve j = u ∧
      p.chain.locate k = .ok ⟨some j, (spell ws).length⟩ := by
  have hhalts := (parse_walk hw hn source input).halts hw hc .root (Int.le_refl 0)
    (Int.natCast_nonneg k) (Int.ofNat_le.mpr hk) (Segment.awaits_start _ _ _) (hc _ .root) hp
  obtain ⟨ws, u, rem, j, hleads, hrest, hends, hj, hplace⟩ := hhalts
  exact ⟨ws, u, rem, j, hleads, by simpa [Reader.ofText, Reader.rest] using hrest, hends, hj,
    by simpa [Reader.ofText] using hplace⟩

/-- Completions fail only where a requirement does, and come about so otherwise. -/
theorem completions_cases (hw : g.OfWords) (hn : g.NamesDistinct) (hc : g.Coherent) (source : S)
    (input : Text) :
    (∃ f, g.completions source input = .error f ∧
      ∃ t, g.Reachable t ∧ ∃ c ∈ t.children, c.admits source = .error f) ∨
    ∃ all ws u rem, g.completions source input = .ok all ∧
      g.Completes source input ws u rem all := by
  have hwalk := parse_walk hw hn source input
  rw [completions]
  cases hparse : g.parse source (.ofText input) with
  | error f => exact .inl ⟨f, rfl, hwalk.faults .root hparse⟩
  | ok p =>
    obtain ⟨ws, u, rem, i, hleads, hsplit, hends, rfl, hplace⟩ :=
      parse_halts hw hn hc hparse (Nat.le_refl input.length)
    obtain ⟨hinput, hsource⟩ : p.reader.input = input ∧ p.chain.first.frame.source = source :=
      hwalk.keeps hparse
    rw [List.take_length] at hsplit
    have hdrop : input.drop (spell ws).length = rem := by rw [hsplit, List.drop_left]
    have hstart : (spell ws).length ≤ input.length := by rw [hsplit, List.length_append]; omega
    have hreach := hleads.reachable .root
    have hcomplete := complete_words hinput hsource hplace hstart (Nat.le_refl _) (hw _ hreach)
    rw [List.take_length] at hcomplete
    rcases completedWords_cases source input (spell ws).length (hreach.nodup hn) with
      ⟨f, hf, hfails⟩ | ⟨all, hall, hperm⟩
    · exact .inl ⟨f, hcomplete.trans hf, _, hreach, hfails⟩
    · refine .inr ⟨all, ws, _, rem, hcomplete.trans hall, hsplit, hleads, hends,
        ⟨p, i, hparse, hplace, rfl⟩, ?_⟩
      rwa [hdrop] at hperm

namespace Completes

variable {ws : List Text} {u : Tree S C M} {rem : Text} {all : Suggestions}

theorem mem_list_iff (h : g.Completes source input ws u rem all) {s : Suggestion} :
    s ∈ all.list ↔ ∃ c ∈ u.children, c.admits source = .ok true ∧ rem.Continues c.name ∧
      s = .proposal input (spell ws).length c.name := by
  rw [h.list.mem_iff]
  simp only [List.mem_map, List.mem_filter, welcomes_iff, decide_eq_true_iff, and_assoc]
  exact exists_congr fun c => and_congr_right fun _ => and_congr_right fun _ =>
    and_congr_right fun _ => eq_comm

/-- The texts suggested are the names of the children that go on. -/
theorem mem_texts_iff (h : g.Completes source input ws u rem all) {word : Text} :
    word ∈ all.list.map Suggestion.text ↔
      ∃ c ∈ u.children, c.admits source = .ok true ∧ c.name = word ∧ rem.Continues word := by
  simp only [List.mem_map, h.mem_list_iff]
  constructor
  · rintro ⟨_, ⟨c, hc, hadmits, hon, rfl⟩, rfl⟩
    exact ⟨c, hc, hadmits, rfl, hon⟩
  · rintro ⟨c, hc, hadmits, rfl, hon⟩
    exact ⟨_, ⟨c, hc, hadmits, hon, rfl⟩, rfl⟩

theorem nodup_texts (h : g.Completes source input ws u rem all) (hn : g.NamesDistinct) :
    (all.list.map Suggestion.text).Nodup := by
  refine (h.list.map Suggestion.text).nodup_iff.mpr ?_
  rw [List.map_map]
  exact ((h.leads.reachable .root).nodup hn).sublist
    ((List.filter_sublist.trans List.filter_sublist).map _)

end Completes

theorem apply_proposal (input word : Text) (start : Nat) :
    (Suggestion.proposal input start word).apply input = .ok (input.take start ++ word) := by
  have hfirst : input.first start = input.take start := by
    rw [Text.first, if_neg (by omega), Int.toNat_natCast]
  simp only [Suggestion.apply, Suggestion.proposal, Suggestion.ofText, hfirst, Int.lt_irrefl,
    if_false]
  split_ifs with hzero
  · rw [Int.natCast_eq_zero.mp hzero.1]
    rfl
  · rfl

/-- The parse of a suggested line uses it up and ends at the suggested word. -/
theorem Completes.accepted (hw : g.OfWords) (hn : g.NamesDistinct) {ws : List Text}
    {u : Tree S C M} {rem : Text} {all : Suggestions}
    (h : g.Completes source input ws u rem all) {s : Suggestion} (hs : s ∈ all.list) :
    ∃ c ∈ u.children, c.name = s.text ∧ ∃ line q, s.apply input = .ok line ∧
      g.parse source (.ofText line) = .ok q ∧ q.isDone = true ∧
      q.matches.getLast? = some (c.matchAt (spell ws).length) := by
  obtain ⟨c, hc, hadmits, -, rfl⟩ := h.mem_list_iff.mp hs
  obtain ⟨q, hq, hreader, hlast⟩ := (parse_walk hw hn source (spell ws ++ c.name)).arrives hw hn rfl
    .root (Int.le_refl 0) h.leads hc hadmits rfl
  refine ⟨c, hc, rfl, spell ws ++ c.name, q, ?_, hq, ?_, ?_⟩
  · rw [apply_proposal, h.split, List.take_left]
  · rw [Parse.isDone, hreader]
    simp [Reader.canRead, Reader.ofText, Reader.rest]
  · simpa [Reader.ofText] using hlast

/-- A matched word is suggested wherever the line is cut inside it. -/
theorem suggested_at_cut (hw : g.OfWords) (hn : g.NamesDistinct) {line : Text} {p : Parse S C M}
    {m : Match} {k : Nat} {ws : List Text} {u : Tree S C M} {rem : Text} {all : Suggestions}
    (hp : g.parse source (.ofText line) = .ok p) (hm : m ∈ p.matches) (hk : m.span.start ≤ k)
    (hk' : k < m.span.stop) (h : g.Completes source (line.take k) ws u rem all) :
    m.tag.name ∈ all.list.map Suggestion.text := by
  rcases (parse_walk hw hn source line).matched (Int.le_refl 0) hp hm with
    hm | ⟨ws', u', c, more, hleads, hc, hadmits, hline, rfl⟩
  · exact absurd hm List.not_mem_nil
  · obtain ⟨j, rfl⟩ : ∃ j, k = (spell ws').length + j :=
      Nat.exists_eq_add_of_le (by simpa [Tree.matchAt, Reader.ofText] using hk)
    have hj : j < c.name.length := by
      simp only [Tree.matchAt, Reader.ofText] at hk'
      omega
    have hline : line = spell ws' ++ (c.name ++ more) := hline
    have hcut : line.take ((spell ws').length + j) = spell ws' ++ c.name.take j := by
      rw [hline, List.take_length_add_append, List.take_append_of_le_length (Nat.le_of_lt hj)]
    have hword := hw _ (hleads.reachable .root) c hc
    have hwhole : separator ∉ c.name.take j := fun hsep => hword.spaceless (List.mem_of_mem_take hsep)
    obtain ⟨rfl, rfl, rfl⟩ := hleads.unique hw hn .root h.leads (hcut.symm.trans h.split) (.inl hwhole)
      h.ends
    exact h.mem_texts_iff.mpr ⟨c, hc, hadmits, rfl, Text.continues_take hj⟩

/-- In a grammar of words, whatever the source and the redirects, completions at the end of an input
and parses agree. Only a failing requirement makes completions fail. Those of the children at the
place of the end that the source may use and that go on from what was typed are suggested, each once,
and nothing else; the parse of a line that a suggestion makes uses it up and ends at the child
suggested. Wherever a line is cut inside a word that its parse matched, the word is suggested. -/
theorem completions_of_words (hw : g.OfWords) (hn : g.NamesDistinct) (hc : g.Coherent) (source : S) :
    (∀ input f, g.completions source input = .error f →
      ∃ t, g.Reachable t ∧ ∃ c ∈ t.children, c.admits source = .error f) ∧
    (∀ input all, g.completions source input = .ok all →
      ∃ p i, ∃ start : Nat, g.parse source (.ofText input) = .ok p ∧
        p.chain.locate input.length = .ok ⟨some i, start⟩ ∧ start ≤ input.length ∧
        (all.list.map Suggestion.text).Nodup ∧
        (∀ word, word ∈ all.list.map Suggestion.text ↔
          ∃ c ∈ (g.resolve i).children, c.admits source = .ok true ∧ c.name = word ∧
            Text.Continues (input.drop start) word) ∧
        ∀ s ∈ all.list, ∃ c ∈ (g.resolve i).children, c.name = s.text ∧
          ∃ line q, s.apply input = .ok line ∧ g.parse source (.ofText line) = .ok q ∧
            q.isDone = true ∧ q.matches.getLast? = some (c.matchAt start)) ∧
    (∀ line p, g.parse source (.ofText line) = .ok p → ∀ m ∈ p.matches, ∀ k : Nat,
      m.span.start ≤ k → k < m.span.stop → ∀ all, g.completions source (line.take k) = .ok all →
        m.tag.name ∈ all.list.map Suggestion.text) := by
  have hcompletes : ∀ {input all}, g.completions source input = .ok all →
      ∃ ws u rem, g.Completes source input ws u rem all := by
    intro input all hall
    rcases completions_cases hw hn hc source input with ⟨f, hf, -⟩ | ⟨all', ws, u, rem, hok, h⟩
    · simp [hf] at hall
    · obtain rfl := Except.ok.inj (hok.symm.trans hall)
      exact ⟨ws, u, rem, h⟩
  refine ⟨fun input f hf => ?_, fun input all hall => ?_, fun line p hp m hm k hk hk' all hall => ?_⟩
  · rcases completions_cases hw hn hc source input with ⟨f', hf', hfails⟩ | ⟨all, ws, u, rem, hok, -⟩
    · obtain rfl := Except.error.inj (hf'.symm.trans hf)
      exact hfails
    · simp [hok] at hf
  · obtain ⟨ws, u, rem, h⟩ := hcompletes hall
    obtain ⟨p, i, hp, hplace, rfl⟩ := h.place
    have hdrop : input.drop (spell ws).length = rem := by rw [h.split, List.drop_left]
    refine ⟨p, i, (spell ws).length, hp, hplace, ?_, h.nodup_texts hn, fun word => ?_, fun s hs =>
      h.accepted hw hn hs⟩
    · rw [h.split, List.length_append]
      omega
    · rw [hdrop]
      exact h.mem_texts_iff
  · obtain ⟨ws, u, rem, h⟩ := hcompletes hall
    exact suggested_at_cut hw hn hp hm hk hk' h

/-- One word begins like another, which only some sources may use; `again` leads back to the root. -/
def drill : Grammar Bool Unit Unit :=
  Workbench.grammar <| Workbench.run ⟨true, .standard⟩
    [.start (text "on") (.literal (text "on")),
      .start (text "go") (.literal (text "go")),
      .change (text "go") (.built (text "on")),
      .register (text "go"),
      .start (text "gone") (.literal (text "Gone")),
      .change (text "gone") (.requirement .ok),
      .register (text "gone"),
      .start (text "again") (.literal (text "again")),
      .change (text "again") (.forward (some (.path [])) none false),
      .register (text "again")]

/-- Behind the redirect both words are suggested to the source that may use them, and either makes a
line that is parsed to its end. -/
theorem completions_of_words_drill :
    drill.OfWords ∧ drill.NamesDistinct ∧ drill.Coherent ∧
      (drill.completions false (text "again g")).map (fun all => all.list.map Suggestion.text) =
        .ok [text "go"] ∧
      ∃ all, drill.completions true (text "again g") = .ok all ∧
        all.list.map Suggestion.text = [text "go", text "Gone"] ∧
        ∀ s ∈ all.list, ∃ line q, s.apply (text "again g") = .ok line ∧
          drill.parse true (.ofText line) = .ok q ∧ q.isDone = true := by
  obtain ⟨hn, hc⟩ : drill.NamesDistinct ∧ drill.Coherent := (Workbench.sound_run _ _).grammar
  have hw : drill.OfWords := ofWords_of_root hc (by decide +kernel) (by decide +kernel)
  have hfalse : (drill.completions false (text "again g")).map
      (fun all => all.list.map Suggestion.text) = .ok [text "go"] := by cbv
  have htrue : (drill.completions true (text "again g")).map
      (fun all => all.list.map Suggestion.text) = .ok [text "go", text "Gone"] := by cbv
  obtain ⟨all, hall, htexts⟩ := map_eq_ok_iff.mp htrue
  obtain ⟨-, hsuggested, -⟩ := completions_of_words hw hn hc true
  obtain ⟨p, i, start, -, -, -, -, -, haccepted⟩ := hsuggested _ all hall
  refine ⟨hw, hn, hc, hfalse, all, hall, htexts, fun s hs => ?_⟩
  obtain ⟨c, -, -, line, q, hline, hq, hdone, -⟩ := haccepted s hs
  exact ⟨line, q, hline, hq, hdone⟩

end Grammar

end CommandTree
