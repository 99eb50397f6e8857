import CommandTree.Proofs.Calls
import CommandTree.Proofs.Traversal
import CommandTree.Proofs.Uniformity
import CommandTree.Proofs.Words

/-!
What the errors of a parse say. A parse keeps the errors of one node only: of the one that it came to,
if none of the children matched there. Main statement: where all argument types are built-in, these are
the errors of the arguments that were tried there, one for each, and none of them lies before the place
where the parse stopped.
-/

namespace CommandTree

namespace Tree

variable {S C M : Type} {t c : Tree S C M} {r : Reader} {s : Segment S C M} {e : SyntaxError}

/-- Whether a parse tries the node, not if asking for that fails. -/
def tried (f : Frame S) (r : Reader) (c : Tree S C M) : Bool :=
  match c.eligible f r with
  | .ok eligible => eligible
  | .error _ => false

theorem tried_iff {f : Frame S} : c.tried f r = true ↔ c.Usable f r := by
  rw [← eligible_iff, tried]
  rcases c.eligible f r with f | ⟨_ | _⟩ <;> simp

/-- The error says why the node did not match. -/
def Refused (r : Reader) (s : Segment S C M) (c : Tree S C M) (x : NodeId × SyntaxError) : Prop :=
  x.1 = c.id ∧ c.attempt r s = .error x.2

/-- A built-in argument is refused at a place that is not before the reader and not behind the end. -/
theorem placed_of_attempt {name : Text} {type : BuiltIn} {provider : Option (Provider S)}
    (hk : c.traits.kind = .argument name type.toArgumentType provider) (hr : r.Inside)
    (h : c.attempt r s = .error e) :
    (∀ word, e.cause ≠ .incorrectLiteral word) ∧ ∃ position, e.position = some (r.input, position) ∧
      r.cursor ≤ position ∧ position ≤ r.input.length := by
  unfold attempt accept at h
  simp only [hk] at h
  rcases hread : type.toArgumentType.parse r with ⟨f | v, n⟩
  · obtain ⟨cause, k, rfl, hle, hcause⟩ := type.refusesAhead r f n hr.1 hr.2 hread
    simp only [hread, Reader.reject] at h
    obtain rfl := Except.error.inj h
    exact ⟨hcause, r.cursor + k, rfl, by omega, hle⟩
  · have hle := type.staysInside r v n hr.1 hr.2 hread
    simp only [hread] at h
    split at h
    · cases h
    · obtain rfl := Except.error.inj h
      exact ⟨by simp [Reader.error], r.cursor + n, rfl, by omega, hle⟩

end Tree

/-! Where a parse stops -/

namespace Grammar

variable {S C M : Type} {g : Grammar S C M} {t : Tree S C M} {r : Reader} {s : Segment S C M}

/-- Behind a child that matched there is a parse. -/
theorem parse_of_onward {c : Tree S C M} {source : S} {tried : Trial S C M}
    (h : g.onward c source r s = .ok tried) : ∃ p, tried = .decided p ∨ tried = .candidate p := by
  unfold onward at h
  split at h
  · split at h
    · obtain ⟨p, -, rfl⟩ := map_eq_ok_iff.mp h
      exact ⟨_, .inl rfl⟩
    · exact ⟨_, .inr (Except.ok.inj h).symm⟩
  · split at h
    · obtain ⟨p, -, rfl⟩ := map_eq_ok_iff.mp h
      exact ⟨_, .inr rfl⟩
    · exact ⟨_, .inr (Except.ok.inj h).symm⟩

/-- A child is passed over, or does not match, or there is a parse behind it. -/
theorem trial_cases {c : Tree S C M} {tried : Trial S C M} (h : g.trial c r s = .ok tried) :
    (tried = .skipped ∧ c.tried s.frame r = false) ∨
      (∃ e, tried = .failed c.id e ∧ c.tried s.frame r = true ∧ c.attempt r s = .error e) ∨
      ∃ p, tried = .decided p ∨ tried = .candidate p := by
  unfold trial at h
  split at h
  · cases h
  · rename_i hnot
    exact .inl ⟨(Except.ok.inj h).symm, by rw [Tree.tried, hnot]⟩
  · rename_i hel
    split at h
    · rename_i e hfailed
      exact .inr (.inl ⟨e, (Except.ok.inj h).symm, by rw [Tree.tried, hel], hfailed⟩)
    · exact .inr (.inr (parse_of_onward h))

/-- Where none of several nodes matched, the errors are those of the nodes that were tried, in order. -/
theorem refused_of_explore {cs : List (Tree S C M)} {errors : List (NodeId × SyntaxError)}
    (h : g.explore cs r s = .ok (.pending errors [])) :
    List.Forall₂ (Tree.Refused r s) (cs.filter (Tree.tried s.frame r)) errors := by
  induction cs generalizing errors with
  | nil =>
    rw [explore_nil] at h
    cases h
    exact .nil
  | cons c cs ih =>
    rw [explore_cons] at h
    cases htrial : g.trial c r s with
    | error f => simp [htrial] at h
    | ok tried =>
      rw [htrial] at h
      rcases trial_cases htrial with ⟨rfl, hnot⟩ | ⟨e, rfl, htried, hfailed⟩ | ⟨p, rfl | rfl⟩
      · obtain ⟨exploration, hexplore, rfl⟩ := map_eq_ok_iff.mp h
        rw [List.filter_cons_of_neg (by simp [hnot])]
        exact ih hexplore
      · obtain ⟨exploration, hexplore, hadd⟩ := map_eq_ok_iff.mp h
        cases exploration with
        | decided p => cases hadd
        | pending errors' parses =>
          cases hadd
          rw [List.filter_cons_of_pos htried]
          exact .cons ⟨rfl, hfailed⟩ (ih hexplore)
      · cases h
      · obtain ⟨exploration, -, hadd⟩ := map_eq_ok_iff.mp h
        cases exploration <;> cases hadd

/-- The word that the next token is matches if it is tried, so that only arguments are ever refused. -/
theorem refused_arguments {errors : List (NodeId × SyntaxError)} (hr : r.Inside)
    (h : g.explore (t.relevant r) r s = .ok (.pending errors [])) :
    (∀ c ∈ (t.child? r.rest.token).filter Tree.isLiteral, c.tried s.frame r = false) ∧
      List.Forall₂ (Tree.Refused r s) (t.arguments.filter (Tree.tried s.frame r)) errors := by
  have hrefused := refused_of_explore h
  rw [Tree.relevant, List.filter_append] at hrefused
  cases hword : (t.child? r.rest.token).filter Tree.isLiteral with
  | none => exact ⟨by simp, by simpa [hword] using hrefused⟩
  | some c =>
    obtain ⟨hfound, hliteral⟩ := Option.filter_eq_some_iff.mp hword
    have hname : c.name = r.rest.token := by simpa using List.find?_some hfound
    obtain ⟨tail, hsplit, hgap⟩ := r.rest.token_split
    rw [← hname] at hsplit
    have hmatches := Tree.attempt_literal (Tree.kind_of_isLiteral hliteral) hr.1 hr.2 hsplit hgap s
    rw [hword, Option.toList_some] at hrefused
    -- Were the word tried, the first of the errors would be its own.
    have hnot : c.tried s.frame r = false := by
      rw [← Bool.not_eq_true]
      intro htried
      rw [List.filter_cons_of_pos htried, List.cons_append] at hrefused
      obtain ⟨x, -, ⟨-, hfailed⟩, -⟩ := List.forall₂_cons_left_iff.mp hrefused
      simp [hmatches] at hfailed
    rw [List.filter_cons_of_neg (by simp [hnot])] at hrefused
    exact ⟨by simpa using hnot, hrefused⟩

/-- Where no child matched, none of the arguments and none of the words does that the source may use
and whose condition is met. -/
theorem no_child_matches {errors : List (NodeId × SyntaxError)} (hr : r.Inside)
    (hnames : (t.children.map Tree.name).Nodup)
    (h : g.explore (t.relevant r) r s = .ok (.pending errors [])) {c : Tree S C M}
    (hc : c ∈ t.children) (husable : c.Usable s.frame r)
    (hkind : c.isArgument = true ∨ c.isLiteral = true ∧ separator ∉ c.name) :
    ∃ e, c.attempt r s = .error e := by
  obtain ⟨hword, hrefused⟩ := refused_arguments hr h
  have htried := Tree.tried_iff.mpr husable
  rcases hkind with hargument | ⟨hliteral, hspaceless⟩
  · have hmem : c ∈ t.arguments.filter (Tree.tried s.frame r) :=
      List.mem_filter.mpr ⟨List.mem_filter.mpr ⟨hc, hargument⟩, htried⟩
    obtain ⟨x, -, -, hfailed⟩ := exists_partner hrefused hmem
    exact ⟨x.2, hfailed⟩
  · cases hattempt : c.attempt r s with
    | error e => exact ⟨e, rfl⟩
    | ok matched =>
      have hname := Tree.token_of_attempt (Tree.kind_of_isLiteral hliteral) hspaceless hr.1 hattempt
      have hfound := (Tree.child?_eq_some_iff hnames).mpr ⟨hc, hname⟩
      have hnot := hword c (Option.filter_eq_some_iff.mpr ⟨hfound, hliteral⟩)
      simp [htried] at hnot

end Grammar

/-- The node that a frame has come to: the last that it matched, or else its root. -/
def Segment.tip? {S C M : Type} (s : Segment S C M) : Option NodeId :=
  (s.frame.matched.getLast?.map Match.node).or s.frame.root

namespace Grammar

variable {S C M : Type} {g : Grammar S C M} {t c : Tree S C M} {r : Reader} {s : Segment S C M}
  {p : Parse S C M}

/-- A frame has come to a node. -/
def At (g : Grammar S C M) (s : Segment S C M) (t : Tree S C M) : Prop :=
  ∃ i, s.tip? = some i ∧ g.resolve i = t

theorem at_start (source : S) (i : NodeId) (position : Int) :
    g.At (.start source (some i) position) (g.resolve i) := ⟨i, rfl, rfl⟩

theorem at_matched (hg : g.Coherent) (ht : g.Reachable t) {s' : Segment S C M} {n : Nat}
    (hc : c ∈ t.relevant r) (h : c.attempt r s = .ok (s', n)) : g.At s' c := by
  obtain ⟨hchild, hroot⟩ := Tree.mem_relevant hc
  obtain ⟨-, -, ⟨m, hm, hmatched⟩, -⟩ := Tree.records_of_attempt hroot h
  refine ⟨c.id, ?_, hg c (ht.child hchild)⟩
  rw [Segment.tip?, hmatched, List.getLast?_concat, ← hm]
  rfl

/-- A parse stopped at a node with errors: none of the children tried there matched. -/
structure StopsAt (g : Grammar S C M) (input : Text) (p : Parse S C M) (t : Tree S C M) : Prop where
  reachable : g.Reachable t
  arrived : g.At p.chain.last t
  inside : p.reader.Inside
  input_eq : p.reader.input = input
  explored : g.explore (t.relevant p.reader) p.reader p.chain.last = .ok (.pending p.errors [])

theorem StopsAt.under {input : Text} (h : g.StopsAt input p t) (s : Segment S C M) :
    g.StopsAt input (p.under s) t := by
  have hlast : (p.under s).chain.last = p.chain.last := List.getLastD_cons
  exact ⟨h.reachable, hlast ▸ h.arrived, h.inside, h.input_eq, hlast ▸ h.explored⟩

/-- A parse with errors stopped with them, however it got there. -/
theorem Reaches.stopsAt (hg : g.Coherent) (h : g.Reaches t r s p) (ht : g.Reachable t)
    (hr : r.Inside) (hs : g.At s t) (he : p.errors ≠ []) : ∃ u, g.StopsAt r.input p u := by
  -- Errors come from the last stop only: a child that matches drops those of its siblings.
  induction h with
  | stop t r s errors tried => exact ⟨t, ht, hs, hr, rfl, tried⟩
  | rest => exact absurd rfl he
  | child relevant _ matched more _ _ ih =>
    exact ih (ht.child (Tree.mem_relevant relevant).1) (hr.next (by decide) more)
      (at_matched hg ht relevant matched) he
  | redirect relevant _ _ more leads _ ih =>
    obtain ⟨u, hu⟩ := ih ((ht.child (Tree.mem_relevant relevant).1).redirect leads)
      (hr.next (by decide) more) (at_start _ _ _) he
    exact ⟨u, hu.under _⟩

theorem stopsAt_of_parse (hg : g.Coherent) {source : S} (hr : r.Inside)
    (hp : g.parse source r = .ok p) (he : p.errors ≠ []) : ∃ t, g.StopsAt r.input p t := by
  have hstart := at_start (g := g) source g.root.id r.cursor
  rw [hg g.root .root] at hstart
  exact (reaches_of_parseAt hp).stopsAt hg .root hr hstart he

end Grammar

/-! The error that is reported -/

namespace Parse

variable {S C M : Type}

/-- Going through errors, the first of those that got furthest is kept. -/
theorem furthest_first (d : SyntaxError) (es : List SyntaxError) :
    ∃ before e after, d :: es = before ++ e :: after ∧ es.foldl (fun found e =>
        match found with
        | none => some e
        | some d => if d.cursor < e.cursor then some e else some d) (some d) = some e ∧
      (∀ x ∈ before, x.cursor < e.cursor) ∧ ∀ x ∈ after, x.cursor ≤ e.cursor := by
  induction es generalizing d with
  | nil => exact ⟨[], d, [], rfl, rfl, by simp, by simp⟩
  | cons e es ih =>
    rw [List.foldl_cons]
    by_cases hlt : d.cursor < e.cursor
    · obtain ⟨before, x, after, hsplit, hfold, hbefore, hafter⟩ := ih e
      have hle : e.cursor ≤ x.cursor := by
        cases before with
        | nil => exact (congrArg SyntaxError.cursor (List.cons.inj hsplit).1).le
        | cons b before =>
          obtain rfl := (List.cons.inj hsplit).1
          exact (hbefore e List.mem_cons_self).le
      exact ⟨d :: before, x, after, congrArg (d :: ·) hsplit, by simpa [hlt] using hfold,
        List.forall_mem_cons.mpr ⟨hlt.trans_le hle, hbefore⟩, hafter⟩
    · obtain ⟨before, x, after, hsplit, hfold, hbefore, hafter⟩ := ih d
      -- The error that is passed over stands behind the one that is kept, or before a later one.
      cases before with
      | nil =>
        obtain ⟨rfl, rfl⟩ := List.cons.inj hsplit
        exact ⟨[], d, e :: es, rfl, by simpa [hlt] using hfold, by simp,
          List.forall_mem_cons.mpr ⟨not_lt.mp hlt, hafter⟩⟩
      | cons b before =>
        obtain ⟨rfl, rfl⟩ := List.cons.inj hsplit
        obtain ⟨hd, hbefore⟩ := List.forall_mem_cons.mp hbefore
        exact ⟨d :: e :: before, x, after, rfl, by simpa [hlt] using hfold,
          List.forall_mem_cons.mpr ⟨hd, List.forall_mem_cons.mpr
            ⟨(not_lt.mp hlt).trans_lt hd, hbefore⟩⟩, hafter⟩

/-- A parse with errors that left input over is reported as the first of those that got furthest. -/
theorem leftover_first (p : Parse S C M) (he : p.errors ≠ []) :
    ∃ before x after, p.errors = before ++ x :: after ∧ p.leftover = x.2 ∧
      (∀ y ∈ before, y.2.cursor < x.2.cursor) ∧ ∀ y ∈ after, y.2.cursor ≤ x.2.cursor := by
  obtain ⟨y, ys, herrors⟩ := List.exists_cons_of_ne_nil he
  obtain ⟨before, e, after, hsplit, hfold, hbefore, hafter⟩ :=
    furthest_first y.2 (ys.map Prod.snd)
  have hfound : p.deepest? = some e := by rw [deepest?, herrors]; exact hfold
  rw [← List.map_cons, ← herrors] at hsplit
  obtain ⟨before, rest, hpairs, rfl, hrest⟩ := List.map_eq_append_iff.mp hsplit
  obtain ⟨x, after, rfl, rfl, rfl⟩ := List.map_eq_cons_iff.mp hrest
  exact ⟨before, x, after, hpairs, by rw [leftover, hfound],
    fun z hz => hbefore z.2 (List.mem_map_of_mem hz),
    fun z hz => hafter z.2 (List.mem_map_of_mem hz)⟩

/-- A parse with errors that left input over is reported as the one that got furthest. -/
theorem leftover_spec (p : Parse S C M) (he : p.errors ≠ []) :
    ∃ x ∈ p.errors, p.leftover = x.2 ∧ ∀ y ∈ p.errors, y.2.cursor ≤ x.2.cursor := by
  obtain ⟨before, x, after, herrors, hleftover, hbefore, hafter⟩ := p.leftover_first he
  refine ⟨x, by simp [herrors], hleftover, ?_⟩
  rw [herrors, List.forall_mem_append, List.forall_mem_cons]
  exact ⟨fun y hy => (hbefore y hy).le, le_rfl, hafter⟩

end Parse

namespace Grammar

variable {S C M : Type} {g : Grammar S C M}

/-- All arguments that a parse can come to are of built-in types. -/
def OfBuiltIns (g : Grammar S C M) : Prop :=
  ∀ t, g.Reachable t → ∀ name type provider, t.traits.kind = .argument name type provider →
    ∃ builtIn : BuiltIn, type = builtIn.toArgumentType

/-- The errors of a parse, explained by the node that its last frame has come to. -/
structure Explained (g : Grammar S C M) (r : Reader) (p : Parse S C M) (t : Tree S C M) :
    Prop where
  /-- The node is the last that the last frame matched, or the root of that frame. -/
  arrived : g.At p.chain.last t
  /-- No argument below it matches, and no word, that the source may use and whose condition is met.
  A word with a separator in it is never tried. -/
  unmatched : ∀ c ∈ t.children, c.Usable p.chain.last.frame p.reader →
    (c.isArgument = true ∨ c.isLiteral = true ∧ separator ∉ c.name) →
      ∃ e, c.attempt p.reader p.chain.last = .error e
  /-- There is one error for each argument below it that was tried, in their order. -/
  refused : List.Forall₂ (Tree.Refused p.reader p.chain.last)
    (t.arguments.filter (Tree.tried p.chain.last.frame p.reader)) p.errors
  /-- Errors carry the whole input, and a position in what was left over. -/
  placed : ∀ x ∈ p.errors, (∀ word, x.2.cause ≠ .incorrectLiteral word) ∧
    ∃ position, x.2.position = some (r.input, position) ∧
      p.reader.cursor ≤ position ∧ position ≤ r.input.length
  /-- Running the parse fails with the error that got furthest, if input was left over. -/
  reported : p.reader.canRead 1 = true → ∀ acts : Actions S C M, ∃ x ∈ p.errors,
    (p.execute acts).1 = .error (.rejected x.2) ∧ p.reader.cursor ≤ x.2.cursor ∧
      ∀ y ∈ p.errors, y.2.cursor ≤ x.2.cursor

/-- Where all argument types are built-in, the errors of a parse are complete and well placed. They are
about the node that the last frame has come to: no child of it matched, and each of the arguments that
the source may use there, and whose condition is met, has its error. No error is about a word, each
carries the whole input, and none points before the place where the parse stopped; nor does the one that
running the parse fails with. -/
theorem errors_explained (hg : g.Coherent) (hn : g.NamesDistinct) (hb : g.OfBuiltIns) {source : S}
    {r : Reader} {p : Parse S C M} (hr : r.Inside) (hp : g.parse source r = .ok p)
    (he : p.errors ≠ []) : ∃ t, g.Explained r p t := by
  obtain ⟨t, h⟩ := stopsAt_of_parse hg hr hp he
  have hrefused := (refused_arguments h.inside h.explored).2
  have hplaced : ∀ x ∈ p.errors, (∀ word, x.2.cause ≠ .incorrectLiteral word) ∧
      ∃ position, x.2.position = some (r.input, position) ∧
        p.reader.cursor ≤ position ∧ position ≤ r.input.length := by
    intro x hx
    obtain ⟨c, hc, -, hfailed⟩ := exists_partner hrefused.flip hx
    obtain ⟨hchild, hargument⟩ := List.mem_filter.mp (List.mem_of_mem_filter hc)
    cases hk : c.traits.kind with
    | root | literal => simp [Tree.isArgument, hk, Kind.isArgument] at hargument
    | argument name type provider =>
      obtain ⟨builtIn, rfl⟩ := hb c (h.reachable.child hchild) name type provider hk
      rw [← h.input_eq]
      exact Tree.placed_of_attempt hk h.inside hfailed
  refine ⟨t, h.arrived, fun c hc => no_child_matches h.inside (h.reachable.nodup hn) h.explored hc,
    hrefused, hplaced, fun hleft acts => ?_⟩
  obtain ⟨x, hx, hleftover, hfurthest⟩ := p.leftover_spec he
  obtain ⟨-, position, hposition, hle, -⟩ := hplaced x hx
  refine ⟨x, hx, ?_, ?_, hfurthest⟩
  · rw [Parse.execute, if_pos hleft, hleftover]
  · rw [SyntaxError.cursor, hposition]
    exact hle

/-- Behind `set` stands a word, or a level from 1 to 10, or a label. `again` leads back to the root. -/
def mixer : Grammar Unit Unit Unit :=
  Workbench.grammar <| Workbench.run ⟨true, .standard⟩
    [.start (text "most") (.literal (text "most")),
      .start (text "level") (.argument (text "level")
        (BuiltIn.number .integer (.integer 1) (.integer 10)).toArgumentType none),
      .start (text "label") (.argument (text "label") (BuiltIn.string .phrase).toArgumentType none),
      .start (text "set") (.literal (text "set")),
      .change (text "set") (.built (text "most")),
      .change (text "set") (.built (text "level")),
      .change (text "set") (.built (text "label")),
      .register (text "set"),
      .start (text "again") (.literal (text "again")),
      .change (text "again") (.forward (some (.path [])) none false),
      .register (text "again")]

theorem mixer_ofBuiltIns : mixer.OfBuiltIns := by
  have hcoherent : mixer.Coherent := (Workbench.sound_run _ _).grammar.2
  have hkinds : mixer.root.subtrees.map (fun t => t.traits.kind) =
      [.root, .literal (text "set"), .literal (text "most"),
        .argument (text "level")
          (BuiltIn.number .integer (.integer 1) (.integer 10)).toArgumentType none,
        .argument (text "label") (BuiltIn.string .phrase).toArgumentType none,
        .literal (text "again")] := rfl
  intro t ht name type provider hk
  have hmem := List.mem_map_of_mem (f := fun t => t.traits.kind)
    (ht.mem_subtrees hcoherent (by decide +kernel))
  rw [hkinds, hk] at hmem
  simp only [List.mem_cons, List.not_mem_nil, or_false, Kind.argument.injEq, reduceCtorEq,
    false_or] at hmem
  rcases hmem with ⟨-, htype, -⟩ | ⟨-, htype, -⟩
  · exact ⟨_, htype⟩
  · exact ⟨_, htype⟩

/-- Behind the redirect the quoted label is neither a level nor, for its escape, a label. The parse
stops before it, and what is reported is the escape. -/
theorem errors_explained_mixer :
    mixer.Coherent ∧ mixer.NamesDistinct ∧ mixer.OfBuiltIns ∧
      ∃ p t, mixer.parse () (.ofText (text "again set \"a\\q\"")) = .ok p ∧ p.reader.cursor = 10 ∧
        p.errors.map (fun x => (x.2.cause, x.2.cursor)) =
          [(.expectedNumber .integer, 10), (.invalidEscape 113, 13)] ∧
        mixer.Explained (.ofText (text "again set \"a\\q\"")) p t := by
  obtain ⟨hn, hc⟩ : mixer.NamesDistinct ∧ mixer.Coherent := (Workbench.sound_run _ _).grammar
  have h : (mixer.parse () (.ofText (text "again set \"a\\q\""))).map (fun p =>
      (p.reader.cursor, p.errors.map fun x => (x.2.cause, x.2.cursor))) =
        .ok (10, [(.expectedNumber .integer, 10), (.invalidEscape 113, 13)]) := by cbv
  obtain ⟨p, hp, hparts⟩ := map_eq_ok_iff.mp h
  obtain ⟨hcursor, herrors⟩ := Prod.mk.inj hparts
  have hne : p.errors ≠ [] := fun hnil => by simp [hnil] at herrors
  obtain ⟨t, ht⟩ := errors_explained hc hn mixer_ofBuiltIns
    ⟨Int.le_refl 0, Int.natCast_nonneg _⟩ hp hne
  exact ⟨hc, hn, mixer_ofBuiltIns, p, t, hp, hcursor, herrors, ht⟩

end Grammar

end CommandTree
