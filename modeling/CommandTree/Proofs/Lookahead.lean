import CommandTree.Proofs.Catalogue
import CommandTree.Proofs.Refusals
import CommandTree.Proofs.Translation
import Mathlib

/-!
Looking ahead for a word. Of the words without separators among the children, the one that is the next
token matches and no other does, so a single look-up by that token takes the place of trying them all.
Main statement: after any calls, what a node finds by its index is that word and then every argument;
the children that match are the same as if all were tried, and no error of a parse is about a word unless
the type of an argument says so itself.
-/

namespace CommandTree

variable {S C M : Type}

theorem filter_key_eq {α κ : Type} [DecidableEq κ] {key : α → κ} {as : List α}
    (h : (as.map key).Nodup) (k : κ) :
    (as.filter fun a => key a = k) = (as.find? fun a => key a = k).toList := by
  induction as with
  | nil => rfl
  | cons a as ih =>
    obtain ⟨ha, has⟩ := List.nodup_cons.mp h
    by_cases hk : key a = k
    · have hnone : as.filter (fun b => key b = k) = [] :=
        List.filter_eq_nil_iff.mpr fun b hb hkey =>
          ha (List.mem_map.mpr ⟨b, hb, (of_decide_eq_true hkey).trans hk.symm⟩)
      rw [List.filter_cons_of_pos (by simpa using hk), List.find?_cons_of_pos (by simpa using hk), hnone]
      rfl
    · rw [List.filter_cons_of_neg (by simpa using hk), List.find?_cons_of_neg (by simpa using hk),
        ih has]

/-- A type that, instead of a value, asks for some word itself. -/
def ArgumentType.BlamesWord (type : ArgumentType) : Prop :=
  ∃ r e word n, Reader.Inside r ∧ type.parse r = (.error (.rejected e), n) ∧
    e.cause = .incorrectLiteral word

/-- No type that is built in does. -/
theorem BuiltIn.not_blamesWord (type : BuiltIn) : ¬ type.toArgumentType.BlamesWord := by
  rintro ⟨r, e, word, n, hr, hread, hcause⟩
  obtain ⟨cause, k, hreject, -, hother⟩ := type.refusesAhead r _ n hr.1 hr.2 hread
  obtain rfl := Fault.rejected.inj hreject
  exact hother word hcause

namespace Tree

variable {t c : Tree S C M} {r : Reader} {s : Segment S C M}

def literals (t : Tree S C M) : List (Tree S C M) := t.children.filter isLiteral

/-- Whether a child is worth trying: an argument always is, a word if it is the next token. -/
def worthTrying (r : Reader) (c : Tree S C M) : Bool := c.isArgument || c.name = r.rest.token

theorem not_isArgument_of_isLiteral (h : c.isLiteral = true) : c.isArgument = false := by
  rw [isArgument, kind_of_isLiteral h]
  rfl

/-- What is worth trying is found by one look-up among the words. -/
theorem relevant_eq_filter (h : (t.children.map Tree.name).Nodup) (r : Reader) :
    t.relevant r = (t.literals ++ t.arguments).filter (worthTrying r) := by
  have hwords : t.literals.filter (worthTrying r) =
      ((t.child? r.rest.token).filter isLiteral).toList := by
    have hsame : t.literals.filter (worthTrying r) =
        t.literals.filter fun c => c.name = r.rest.token :=
      List.filter_congr fun c hc => by
        rw [worthTrying, not_isArgument_of_isLiteral (List.mem_filter.mp hc).2, Bool.false_or]
    rw [hsame, literals, List.filter_comm, filter_key_eq h]
    change (t.child? r.rest.token).toList.filter isLiteral = _
    rcases t.child? r.rest.token with _ | c
    · rfl
    · cases hc : c.isLiteral <;> simp [Option.filter, hc]
  have harguments : t.arguments.filter (worthTrying r) = t.arguments :=
    List.filter_eq_self.mpr fun c hc => by simp [worthTrying, (List.mem_filter.mp hc).2]
  rw [List.filter_append, hwords, harguments, relevant]

/-- A word without separators matches exactly if it is the next token. -/
theorem attempt_literal_iff (h : c.isLiteral = true) (hword : separator ∉ c.name) (hr : r.Inside) :
    (∃ x, c.attempt r s = .ok x) ↔ c.name = r.rest.token := by
  constructor
  · rintro ⟨x, hx⟩
    exact token_of_attempt (kind_of_isLiteral h) hword hr.1 hx
  · intro hname
    obtain ⟨tail, hsplit, hgap⟩ := r.rest.token_split
    rw [← hname] at hsplit
    exact ⟨_, attempt_literal (kind_of_isLiteral h) hr.1 hr.2 hsplit hgap s⟩

/-- A word that is read is a match: its token ends behind it. -/
theorem accept_literal_iff (h : c.isLiteral = true) (hr : r.Inside) :
    (∃ s' n, c.accept r s = (.ok s', n)) ↔ ∃ x, c.attempt r s = .ok x := by
  have hk := kind_of_isLiteral h
  constructor
  · rintro ⟨s', n, hs'⟩
    rw [accept, hk] at hs'
    by_cases hword : wordAt c.name r = true
    · obtain ⟨hcovers, hgap⟩ := (wordAt_iff hr.1).mp hword
      exact ⟨_, (attempt_word_iff hr.1 hk).mpr ⟨rfl, hcovers, hgap, rfl⟩⟩
    · simp [hword] at hs'
  · rintro ⟨⟨s', n⟩, hx⟩
    obtain ⟨s₁, hs₁, -⟩ := accept_of_attempt hx
    exact ⟨s₁, n, hs₁⟩

theorem mem_relevant_literal_iff (h : (t.children.map Tree.name).Nodup) (hc : c ∈ t.children)
    (hl : c.isLiteral = true) : c ∈ t.relevant r ↔ c.name = r.rest.token := by
  rw [relevant_eq_filter h, List.mem_filter, worthTrying, not_isArgument_of_isLiteral hl,
    Bool.false_or, decide_eq_true_iff]
  exact and_iff_right (List.mem_append_left _ (List.mem_filter.mpr ⟨hc, hl⟩))

/-- The children that match at a reader, each with the frame and the reader that come out. -/
def matching (r : Reader) (s : Segment S C M) (cs : List (Tree S C M)) :
    List (Tree S C M × Segment S C M × Reader) :=
  cs.filterMap fun c =>
    match c.tried s.frame r, c.attempt r s with
    | true, .ok (s', n) => some (c, s', r.advance n)
    | _, _ => none

/-- Children that do not match may be left out. -/
theorem matching_filter {keeps : Tree S C M → Bool} {cs : List (Tree S C M)}
    (h : ∀ c ∈ cs, keeps c = false → ∃ e, c.attempt r s = .error e) :
    matching r s (cs.filter keeps) = matching r s cs := by
  rw [matching, matching, List.filterMap_filter]
  refine List.filterMap_congr fun c hc => ?_
  cases hkeeps : keeps c with
  | true => rfl
  | false =>
    obtain ⟨e, he⟩ := h c hc hkeeps
    cases c.tried s.frame r <;> simp [he]

/-- An argument complains of a word only if its type does. -/
theorem rejects_of_attempt {name word : Text} {type : ArgumentType} {provider : Option (Provider S)}
    {e : SyntaxError} (hk : c.traits.kind = .argument name type provider)
    (h : c.attempt r s = .error e) (hcause : e.cause = .incorrectLiteral word) :
    ∃ n, type.parse r = (.error (.rejected e), n) := by
  unfold attempt accept at h
  simp only [hk] at h
  rcases hread : type.parse r with ⟨f | v, n⟩
  · rw [hread] at h
    cases f with
    | rejected e' =>
      obtain rfl := Except.error.inj h
      exact ⟨n, rfl⟩
    | _ =>
      obtain rfl := Except.error.inj h
      cases hcause
  · rw [hread] at h
    dsimp only at h
    split at h
    · cases h
    · obtain rfl := Except.error.inj h
      cases hcause

/-- A word that is not worth trying does not match. -/
theorem attempt_of_not_worthTrying (hr : r.Inside)
    (hwords : ∀ c ∈ t.children, c.isLiteral = true → separator ∉ c.name)
    (hc : c ∈ t.literals ++ t.arguments) (hnot : c.worthTrying r = false) (s : Segment S C M) :
    ∃ e, c.attempt r s = .error e := by
  rw [worthTrying, Bool.or_eq_false_iff, decide_eq_false_iff_not] at hnot
  rcases List.mem_append.mp hc with hc | hc
  · obtain ⟨hchild, hliteral⟩ := List.mem_filter.mp hc
    cases hattempt : c.attempt r s with
    | error e => exact ⟨e, rfl⟩
    | ok x =>
      exact absurd ((attempt_literal_iff hliteral (hwords c hchild hliteral) hr).mp ⟨x, hattempt⟩)
        hnot.2
  · simp [(List.mem_filter.mp hc).2] at hnot

end Tree

/-! Exploring fewer children -/

/-- Two explorations have the same parses to offer; errors are not compared. -/
inductive Exploration.Alike : Exploration S C M → Exploration S C M → Prop
  | decided (p : Parse S C M) : Alike (.decided p) (.decided p)
  | pending (errors errors' : List (NodeId × SyntaxError)) (parses : List (Parse S C M)) :
      Alike (.pending errors parses) (.pending errors' parses)

theorem Exploration.Alike.addTo {e e' : Exploration S C M} (h : e.Alike e') (tried : Trial S C M) :
    (tried.addTo e).Alike (tried.addTo e') := by
  cases tried with
  | skipped => exact h
  | failed id error => cases h <;> constructor
  | decided p => exact .decided p
  | candidate p => cases h <;> constructor

namespace Grammar

variable {g : Grammar S C M} {t : Tree S C M} {r : Reader} {s : Segment S C M}

/-- Children that answer whether they are to be tried, and do not match, may be left out. -/
theorem explore_filter {keeps : Tree S C M → Bool} {cs : List (Tree S C M)}
    (h : ∀ c ∈ cs, keeps c = false → (∃ eligible, c.eligible s.frame r = .ok eligible) ∧
      ∃ e, c.attempt r s = .error e) :
    Agree Exploration.Alike (g.explore (cs.filter keeps) r s) (g.explore cs r s) := by
  induction cs with
  | nil =>
    rw [List.filter_nil, explore_nil]
    exact .ok (.pending _ _ _)
  | cons c cs ih =>
    obtain ⟨hc, hcs⟩ := List.forall_mem_cons.mp h
    have hrest := ih hcs
    cases hkeeps : keeps c with
    | true =>
      rw [List.filter_cons_of_pos hkeeps, explore_cons, explore_cons]
      rcases g.trial c r s with f | tried
      · exact .error f
      cases tried with
      | decided p => exact .ok (.decided p)
      | skipped | failed | candidate => exact hrest.map fun _ _ hsame => hsame.addTo _
    | false =>
      obtain ⟨⟨eligible, heligible⟩, e, he⟩ := hc hkeeps
      rw [List.filter_cons_of_neg (by simp [hkeeps]), explore_cons, trial, heligible]
      generalize g.explore (cs.filter keeps) r s = x, g.explore cs r s = y at hrest
      cases eligible with
      | false => cases hrest <;> constructor; assumption
      | true =>
        simp only [he]
        cases hrest with
        | error f => exact .error f
        | ok hsame => cases hsame <;> exact .ok (by constructor)

/-- No error of a parse is one of a word: it stopped where none of the arguments matched that it tried. -/
theorem Reaches.refused {p : Parse S C M} (h : g.Reaches t r s p) (ht : g.Reachable t)
    (hr : r.Inside) : ∀ x ∈ p.errors, ∃ u c r' s', g.Reachable u ∧ c ∈ u.arguments ∧
      Reader.Inside r' ∧ Tree.Refused r' s' c x := by
  induction h with
  | stop t r s errors explored =>
    intro x hx
    obtain ⟨c, hc, hrefused⟩ := exists_partner (refused_arguments hr explored).2.flip hx
    exact ⟨t, c, r, s, ht, List.mem_of_mem_filter hc, hr, hrefused⟩
  | rest => exact fun x hx => absurd hx List.not_mem_nil
  | child relevant _ _ more _ _ ih =>
    exact ih (ht.child (Tree.mem_relevant relevant).1) (hr.next (by decide) more)
  | redirect relevant _ _ more leads _ ih =>
    exact ih ((ht.child (Tree.mem_relevant relevant).1).redirect leads) (hr.next (by decide) more)

/-- The error is one of an argument. It complains of a word only if the argument is of a type that does
so itself, which no built-in type does. -/
def BlamesArgument (g : Grammar S C M) (x : NodeId × SyntaxError) : Prop :=
  ∃ t c name type provider, g.Reachable t ∧ c ∈ t.children ∧ x.1 = c.id ∧
    c.traits.kind = .argument name type provider ∧
    ∀ word, x.2.cause = .incorrectLiteral word →
      (∀ b : BuiltIn, type ≠ b.toArgumentType) ∧ ∃ r n, type.parse r = (.error (.rejected x.2), n)

/-- Every error of a parse is why an argument did not match. -/
theorem exists_argument_of_parse {source : S} {p : Parse S C M} (hr : r.Inside)
    (hp : g.parse source r = .ok p) : ∀ x ∈ p.errors, ∃ t c name type provider r' s',
      g.Reachable t ∧ c ∈ t.children ∧ c.traits.kind = .argument name type provider ∧
      Reader.Inside r' ∧ Tree.Refused r' s' c x := by
  intro x hx
  obtain ⟨t, c, r', s', ht, hc, hr', hrefused⟩ := (reaches_of_parseAt hp).refused .root hr x hx
  obtain ⟨hchild, hargument⟩ := List.mem_filter.mp hc
  cases hk : c.traits.kind with
  | root | literal => simp [Tree.isArgument, hk, Kind.isArgument] at hargument
  | argument name type provider =>
    exact ⟨t, c, name, type, provider, r', s', ht, hchild, hk, hr', hrefused⟩

theorem blamesArgument_of_parse {source : S} {p : Parse S C M} (hr : r.Inside)
    (hp : g.parse source r = .ok p) : ∀ x ∈ p.errors, g.BlamesArgument x := by
  intro x hx
  obtain ⟨t, c, name, type, provider, r', s', ht, hc, hk, hr', hid, hfailed⟩ :=
    exists_argument_of_parse hr hp x hx
  refine ⟨t, c, name, type, provider, ht, hc, hid, hk, fun word hcause => ⟨?_, ?_⟩⟩
  · rintro b rfl
    exact (Tree.placed_of_attempt hk hr' hfailed).1 word hcause
  · exact ⟨r', Tree.rejects_of_attempt hk hfailed hcause⟩

/-- No argument that a parse can come to is of a type that complains of a word. -/
def BlamesNoWord (g : Grammar S C M) : Prop :=
  ∀ t, g.Reachable t → ∀ c ∈ t.children, ∀ name type provider,
    c.traits.kind = .argument name type provider → ¬ type.BlamesWord

theorem BlamesNoWord.of_direct (h : ∀ t ∈ g.root.subtrees, t.redirect = none ∧
    ∀ name type provider, t.traits.kind = .argument name type provider → ¬ type.BlamesWord) :
    g.BlamesNoWord := by
  intro t ht c hc
  have hhas := ht.has_of_direct fun u hu => (h u (Tree.mem_subtrees_iff.mpr hu)).1
  exact (h c (Tree.mem_subtrees_iff.mpr (hhas.child hc))).2

theorem BlamesNoWord.of_parse (hg : g.BlamesNoWord) {source : S} {p : Parse S C M} (hr : r.Inside)
    (hp : g.parse source r = .ok p) : ∀ x ∈ p.errors, ∀ word, x.2.cause ≠ .incorrectLiteral word := by
  intro x hx word hcause
  obtain ⟨t, c, name, type, provider, r', s', ht, hc, hk, hr', -, hfailed⟩ :=
    exists_argument_of_parse hr hp x hx
  obtain ⟨n, hread⟩ := Tree.rejects_of_attempt hk hfailed hcause
  exact hg t ht c hc name type provider hk ⟨r', x.2, word, n, hr', hread, hcause⟩

end Grammar

namespace Tree

variable {t : Tree S C M} {r : Reader}

/-- What looking ahead for the next token comes to at a node. -/
structure Lookahead (t : Tree S C M) (r : Reader) : Prop where
  /-- One word at most comes first, and then every argument in the order of the children. -/
  shape : ∃ word : Option (Tree S C M), (∀ c ∈ word, c ∈ t.children ∧ c.isLiteral = true) ∧
    t.relevant r = word.toList ++ t.children.filter isArgument
  found : ∀ c ∈ t.children, c.isLiteral = true → separator ∉ c.name → ∀ s : Segment S C M,
    (c ∈ t.relevant r ↔ ∃ s' n, c.accept r s = (.ok s', n))
  passed : ∀ c ∈ t.children, c.isLiteral = true → separator ∈ c.name → c ∉ t.relevant r
  /-- Words before arguments are all children in another order. -/
  all : (t.literals ++ t.arguments).Perm t.children
  matching : (∀ c ∈ t.children, c.isLiteral = true → separator ∉ c.name) → ∀ s : Segment S C M,
    Tree.matching r s (t.relevant r) = Tree.matching r s (t.literals ++ t.arguments)
  /-- Where no word fails to answer whether it is to be tried, a parse finds the same below the node. -/
  exploring : (∀ c ∈ t.children, c.isLiteral = true → separator ∉ c.name) →
    ∀ (g : Grammar S C M) (s : Segment S C M),
      (∀ c ∈ t.children, c.isLiteral = true → ∃ eligible, c.eligible s.frame r = .ok eligible) →
      Agree Exploration.Alike (g.explore (t.relevant r) r s)
        (g.explore (t.literals ++ t.arguments) r s)

theorem isArgument_eq_not_isLiteral (h : t.isRoot = false) : t.isArgument = !t.isLiteral := by
  rw [isRoot] at h
  rw [isArgument, isLiteral]
  cases hk : t.traits.kind <;> simp_all [Kind.isRoot, Kind.isArgument, Kind.isLiteral]

theorem lookahead (hnames : (t.children.map Tree.name).Nodup)
    (hroot : ∀ c ∈ t.children, c.isRoot = false) (hr : r.Inside) : t.Lookahead r where
  shape := by
    refine ⟨_, fun c hc => ?_, rfl⟩
    obtain ⟨hfound, hliteral⟩ := Option.filter_eq_some_iff.mp hc
    exact ⟨List.mem_of_find?_eq_some hfound, hliteral⟩
  found c hc hliteral hword s := by
    rw [accept_literal_iff hliteral hr, attempt_literal_iff hliteral hword hr,
      mem_relevant_literal_iff hnames hc hliteral]
  passed c hc hliteral hspaced := by
    rw [mem_relevant_literal_iff hnames hc hliteral]
    intro hname
    rw [hname] at hspaced
    simpa using List.mem_takeWhile_imp hspaced
  all := by
    have harguments : t.arguments = t.children.filter fun c => !c.isLiteral :=
      List.filter_congr fun c hc => isArgument_eq_not_isLiteral (hroot c hc)
    rw [harguments]
    exact List.filter_append_perm isLiteral t.children
  matching hwords s := by
    rw [relevant_eq_filter hnames]
    exact matching_filter fun c hc hnot => attempt_of_not_worthTrying hr hwords hc hnot s
  exploring hwords g s heligible := by
    rw [relevant_eq_filter hnames]
    refine Grammar.explore_filter fun c hc hnot =>
      ⟨?_, attempt_of_not_worthTrying hr hwords hc hnot s⟩
    rcases List.mem_append.mp hc with hliteral | hargument
    · obtain ⟨hchild, hliteral⟩ := List.mem_filter.mp hliteral
      exact heligible c hchild hliteral
    · simp [worthTrying, (List.mem_filter.mp hargument).2] at hnot

end Tree

namespace Catalogued

variable {s : Catalogued S C M} {t : Tree S C M}

/-- What a node finds by its index: the word that the next token is, if the node ever had words, and then
what it lists as arguments. -/
def relevant (s : Catalogued S C M) (i : NodeId) (r : Reader) : List (Tree S C M) :=
  let x := s.nodes i
  let word := if x.hasLiterals then
    ((x.find? r.rest.token).map s.resolve).filter Tree.isLiteral else none
  word.toList ++ x.arguments.map s.resolve

/-- A node on the workbench finds by its index what is found among its children. -/
theorem relevant_eq (hw : s.Sound) (hs : s.Right) (ht : Tree.Among s.trees t) (r : Reader) :
    s.relevant t.id r = t.relevant r := by
  have hindex := hs.among ht t .top
  have hresolve : ∀ c ∈ t.children, s.resolve c.id = c := by
    intro c hc
    obtain ⟨u, hu, hut⟩ := ht
    exact Workbench.resolve_of_among hw.ids ⟨u, hu, hut.child hc⟩
  have harguments : (s.nodes t.id).arguments.map s.resolve = t.arguments := by
    rw [hindex.arguments, List.map_map]
    refine (List.map_congr_left fun c hc => ?_).trans (List.map_id _)
    exact hresolve c (List.mem_of_mem_filter hc)
  have hfound : ((s.nodes t.id).find? r.rest.token).map s.resolve = t.child? r.rest.token := by
    rw [hindex.find?_eq, Option.map_map]
    change (t.child? r.rest.token).map _ = _
    cases hc : t.child? r.rest.token with
    | none => rfl
    | some c => exact congrArg some (hresolve c (List.mem_of_find?_eq_some hc))
  rw [relevant, harguments, hfound, Tree.relevant]
  cases hliterals : (s.nodes t.id).hasLiterals with
  | true => rfl
  | false =>
    have hnone : (t.child? r.rest.token).filter Tree.isLiteral = none := by
      rw [Option.filter_eq_none_iff]
      intro c hc hliteral
      have hhas := hindex.literals c (List.mem_of_find?_eq_some hc) hliteral
      simp [hliterals] at hhas
    rw [hnone]
    rfl

/-- Whatever was done, every node finds by its index one word at most, and then its arguments. It is the
word that matches at the reader, and words with separators are never found; so if there are none, the
same children match, and a parse finds the same below them, as if every child were tried. And no parse
of any grammar has an error about a word, unless an argument of a type that is not built in puts it so;
where no type of an argument does, there is no such error. -/
theorem lookahead_run (options : Options) (acts : List (Act S C M)) :
    (∀ t r, Tree.Among (run options acts).trees t → Reader.Inside r →
      (run options acts).relevant t.id r = t.relevant r ∧ t.Lookahead r) ∧
    ∀ (g : Grammar S C M) source r p, Reader.Inside r → g.parse source r = .ok p →
      (∀ x ∈ p.errors, g.BlamesArgument x) ∧
      (g.BlamesNoWord → ∀ x ∈ p.errors, ∀ word, x.2.cause ≠ .incorrectLiteral word) := by
  obtain ⟨-, hw, hs⟩ := run_spec options acts
  refine ⟨fun t r ht hr => ⟨relevant_eq hw hs ht r, ?_⟩, fun g source r p hr hp =>
    ⟨Grammar.blamesArgument_of_parse hr hp, fun hg => hg.of_parse hr hp⟩⟩
  exact Tree.lookahead (hw.namesDistinct ht).nodup (hs.among ht t .top).noRoot hr

/-- Two words begin alike, one has a separator, and one was removed; beside them stands a number. -/
def console : List (Act Unit Unit Unit) :=
  [.call (.start (text "set") (.literal (text "set"))),
    .call (.start (text "settle") (.literal (text "settle"))),
    .call (.start (text "set all") (.literal (text "set all"))),
    .call (.start (text "value") (.argument (text "value")
      (BuiltIn.anyNumber .integer).toArgumentType none)),
    .call (.start (text "drop") (.literal (text "drop"))),
    .call (.register (text "value")),
    .call (.register (text "settle")),
    .call (.register (text "set all")),
    .call (.register (text "drop")),
    .call (.register (text "set")),
    .call (.remove (.path []) (text "drop"))]

theorem console_blamesNoWord : (run ⟨true, .standard⟩ console).grammar.BlamesNoWord := by
  have hnodes : (run ⟨true, .standard⟩ console).grammar.root.subtrees.map (fun t =>
      (t.redirect, t.traits.kind)) =
      [(none, .root),
        (none, .argument (text "value") (BuiltIn.anyNumber .integer).toArgumentType none),
        (none, .literal (text "settle")), (none, .literal (text "set all")),
        (none, .literal (text "set"))] := by cbv
  refine .of_direct fun t ht => ?_
  have hnode := List.mem_map_of_mem (f := fun t => (t.redirect, t.traits.kind)) ht
  rw [hnodes] at hnode
  generalize t.redirect = target, t.traits.kind = kind at hnode ⊢
  simp only [List.mem_cons, List.not_mem_nil, or_false, Prod.mk.injEq] at hnode
  rcases hnode with ⟨rfl, rfl⟩ | ⟨rfl, rfl⟩ | ⟨rfl, rfl⟩ | ⟨rfl, rfl⟩ | ⟨rfl, rfl⟩
  · exact ⟨rfl, fun _ _ _ hk => by cases hk⟩
  · exact ⟨rfl, fun _ _ _ hk => by cases hk; exact BuiltIn.not_blamesWord _⟩
  · exact ⟨rfl, fun _ _ _ hk => by cases hk⟩
  · exact ⟨rfl, fun _ _ _ hk => by cases hk⟩
  · exact ⟨rfl, fun _ _ _ hk => by cases hk⟩

/-- For `set all` the shorter word is found, and then the number. Where no word is found the number is
to blame. -/
theorem lookahead_run_console :
    ∃ p, Reader.Inside (.ofText (text "set all")) ∧ Reader.Inside (.ofText (text "sett 1")) ∧
      ((run ⟨true, .standard⟩ console).relevant [] (.ofText (text "set all"))).map Tree.name =
        [text "set", text "value"] ∧
      (run ⟨true, .standard⟩ console).root.Lookahead (.ofText (text "set all")) ∧
      (run ⟨true, .standard⟩ console).grammar.parse () (.ofText (text "sett 1")) = .ok p ∧
      p.errors.map (fun x => x.2.cause) = [.expectedNumber .integer] ∧
      (∀ x ∈ p.errors, (run ⟨true, .standard⟩ console).grammar.BlamesArgument x) ∧
      (run ⟨true, .standard⟩ console).grammar.BlamesNoWord ∧
      ∀ x ∈ p.errors, ∀ word, x.2.cause ≠ .incorrectLiteral word := by
  have hinside : Reader.Inside (.ofText (text "set all")) := ⟨by decide, by decide⟩
  have hinside' : Reader.Inside (.ofText (text "sett 1")) := ⟨by decide, by decide⟩
  obtain ⟨hnodes, hparses⟩ := lookahead_run ⟨true, .standard⟩ console
  obtain ⟨-, hlookahead⟩ := hnodes (run ⟨true, .standard⟩ console).root _
    ⟨_, List.mem_cons_self, .top⟩ hinside
  have h : ((run ⟨true, .standard⟩ console).grammar.parse () (.ofText (text "sett 1"))).map
      (fun p => p.errors.map fun x => x.2.cause) = .ok [.expectedNumber .integer] := by cbv
  obtain ⟨p, hp, hcauses⟩ := map_eq_ok_iff.mp h
  obtain ⟨hblames, hnoword⟩ := hparses _ () _ p hinside' hp
  exact ⟨p, hinside, hinside', by cbv, hlookahead, hp, hcauses, hblames, console_blamesNoWord,
    hnoword console_blamesNoWord⟩

/-- A type that refuses everything, and asks for a word. -/
def gruff : ArgumentType where
  description := text "gruff"
  parse r := (.error (r.reject (.incorrectLiteral (text "please"))), 0)
  suggest _ := .ok .empty
  examples := []

/-- One word refuses to say who may use it, and an argument asks for a word. -/
def counter : List (Act Unit Unit Unit) :=
  [.call (.start (text "staff") (.literal (text "staff"))),
    .call (.change (text "staff") (.requirement fun _ => .error (.custom (text "who?")))),
    .call (.register (text "staff")),
    .call (.start (text "menu") (.literal (text "menu"))),
    .call (.register (text "menu")),
    .call (.start (text "order") (.argument (text "order") gruff none)),
    .call (.register (text "order"))]

/-- A word that is not tried cannot refuse to be tried, so trying all words may fail where looking ahead
does not; and an error about a word comes from an argument that puts it so. -/
theorem lookahead_run_counter :
    (∀ c ∈ (run ⟨true, .standard⟩ counter).root.children, c.isLiteral = true → separator ∉ c.name) ∧
    ((run ⟨true, .standard⟩ counter).grammar.explore
      ((run ⟨true, .standard⟩ counter).root.relevant (.ofText (text "menu")))
      (.ofText (text "menu")) (.start () (some []) 0)).isOk = true ∧
    (run ⟨true, .standard⟩ counter).grammar.explore
        ((run ⟨true, .standard⟩ counter).root.literals ++ (run ⟨true, .standard⟩ counter).root.arguments)
        (.ofText (text "menu")) (.start () (some []) 0) = .error (.custom (text "who?")) ∧
    ∃ p, (run ⟨true, .standard⟩ counter).grammar.parse () (.ofText (text "soup")) = .ok p ∧
      p.errors.map (fun x => x.2.cause) = [.incorrectLiteral (text "please")] := by
  refine ⟨?_, by cbv, by cbv, ?_⟩
  · have hnames : (run ⟨true, .standard⟩ counter).root.children.map Tree.name =
        [text "staff", text "menu", text "order"] := by cbv
    intro c hc _
    have hname := List.mem_map_of_mem (f := Tree.name) hc
    rw [hnames] at hname
    exact (by decide : ∀ name ∈ [text "staff", text "menu", text "order"], separator ∉ name) _ hname
  · have h : ((run ⟨true, .standard⟩ counter).grammar.parse () (.ofText (text "soup"))).map
        (fun p => p.errors.map fun x => x.2.cause) = .ok [.incorrectLiteral (text "please")] := by cbv
    exact map_eq_ok_iff.mp h

end Catalogued

end CommandTree
