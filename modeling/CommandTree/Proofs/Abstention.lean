import CommandTree.Proofs.Calls
import CommandTree.Proofs.CursorPlace
import CommandTree.Proofs.Drafting
import Mathlib

/-!
Children that decline to suggest. A list that was built is brought to itself when it is created anew, so a
merge of built lists is the same as creating one list from all they hold, be they none, one or many; and
an empty list adds nothing to it. Main statement: completing gives the same list without the children
that refuse with a syntax error, if the others return what they built from their drafts.
-/

namespace CommandTree

variable {S C M : Type} {command input : Text}

namespace Suggestions

open Suggestion

/-- What was brought to one span is not changed by creating a list from it. -/
theorem create_created (command command' : Text) (ss : List Suggestion) :
    create command' (created command ss).list = .ok (created command ss) := by
  by_cases hne : ss = []
  · subst hne
    simp [created, settled, distinct, commonSpan, create, empty]
  · have hspan : ∀ s ∈ settled command (commonSpan ss) ss, s.span = commonSpan ss := by
      intro s hs
      obtain ⟨t, -, rfl⟩ := mem_settled hs
      rfl
    have hnodup := nodup_settled command (commonSpan ss) ss
    have hsorted : ((settled command (commonSpan ss) ss).mergeSort
        fun a b => !b.text.precedes a.text) = settled command (commonSpan ss) ss :=
      mergeSort_eq_of_perm (List.mergeSort_perm _ _) hnodup
    have hsettled := settled_ne_nil command (commonSpan ss) hne
    rw [created]
    generalize settled command (commonSpan ss) ss = list at hspan hnodup hsorted hsettled
    cases list with
    | nil => contradiction
    | cons s rest =>
      rw [create, hull_of_span hspan, mapM_widen_of_span hspan]
      simp only [bind, Except.bind, distinct_of_nodup hnodup, hsorted]

/-- Merging created lists is creating one from all they hold, however many they are. -/
theorem merge_eq_create {lists : List Suggestions}
    (h : ∀ all ∈ lists, ∃ command' ss, all = created command' ss) :
    merge command lists = create command (lists.flatMap list) := by
  match lists, h with
  | [], _ => rfl
  | [all], h =>
    obtain ⟨command', ss, rfl⟩ := h all List.mem_cons_self
    rw [List.flatMap_singleton, create_created]
    rfl
  | a :: b :: rest, _ => rfl

end Suggestions

/-! What is built from a draft -/

namespace Draft

variable {d d' e : Draft} {all : Suggestions}

theorem editAll_append {before after : List Edit} (h : d.editAll before = .ok d') :
    d.editAll (before ++ after) = d'.editAll after := by
  induction before generalizing d with
  | nil =>
    cases h
    rfl
  | cons c rest ih =>
    rw [editAll] at h
    rw [List.cons_append, editAll]
    cases hc : d.edit c with
    | error f => simp [hc] at h
    | ok d₁ =>
      simp only [hc] at h ⊢
      exact ih h

/-- One draft comes from another by calls. -/
def Becomes (d e : Draft) : Prop := ∃ calls, d.editAll calls = .ok e

theorem Becomes.refl (d : Draft) : d.Becomes d := ⟨[], rfl⟩

theorem Becomes.trans (h : d.Becomes d') (h' : d'.Becomes e) : d.Becomes e := by
  obtain ⟨before, hbefore⟩ := h
  obtain ⟨after, hafter⟩ := h'
  exact ⟨before ++ after, by rw [editAll_append hbefore, hafter]⟩

theorem becomes_suggest (d : Draft) (t : Text) (tooltip : Option Text) :
    d.Becomes (d.suggest t tooltip) := ⟨[.text t tooltip], rfl⟩

/-- The list was built after calls on a draft, or on one that was begun on its input elsewhere. -/
def Builds (d : Draft) (all : Suggestions) : Prop :=
  ∃ e e', (e = d ∨ ∃ start, d.offset start = .ok e) ∧ e.Becomes e' ∧ e'.build = .ok all

theorem Becomes.inside (hd : d.Unfilled) (h : d.Becomes e) :
    e.input = d.input ∧ ∀ s ∈ e.entries, s.span.Inside d.input := by
  obtain ⟨calls, hcalls⟩ := h
  obtain ⟨hinput, hoffered, -⟩ := offered_of_editAll hd hcalls
  exact ⟨hinput, fun s hs => (hoffered s hs).inside⟩

/-- What a draft comes to can be built. -/
theorem Becomes.builds (hd : d.Unfilled) (h : d.Becomes e) :
    ∃ all, e.build = .ok all ∧ d.Builds all := by
  obtain ⟨hinput, hin⟩ := h.inside hd
  have hbuild : e.build = .ok (Suggestions.created e.input e.entries) :=
    Suggestions.create_eq_settled (hinput ▸ hin)
  exact ⟨_, hbuild, d, e, .inl rfl, h, hbuild⟩

/-- A list that was built is what suggestions for the input are brought to. -/
theorem Builds.created (hd : d.Unfilled) (h : d.Builds all) :
    ∃ ss, (∀ s ∈ ss, s.span.Inside d.input) ∧ all = Suggestions.created d.input ss := by
  obtain ⟨e, e', hbegun, hbecomes, hbuild⟩ := h
  have hbegin : e.Unfilled ∧ e.input = d.input := by
    rcases hbegun with rfl | ⟨start, hoffset⟩
    · exact ⟨hd, rfl⟩
    · obtain ⟨hinput, -, hunfilled⟩ := openAt_ok hoffset
      exact ⟨hunfilled, hinput⟩
  obtain ⟨hunfilled, hsame⟩ := hbegin
  obtain ⟨hinput, hin⟩ := hbecomes.inside hunfilled
  rw [hsame] at hinput hin
  rw [build, hinput, Suggestions.create_eq_settled hin] at hbuild
  exact ⟨e'.entries, hin, (Except.ok.inj hbuild).symm⟩

theorem Unfilled.builds_empty (hd : d.Unfilled) : d.Builds .empty :=
  ⟨d, d, .inl rfl, .refl d, by rw [build, hd.blank]; rfl⟩

end Draft

open Draft in
/-- Built-in types build what they suggest. -/
theorem BuiltIn.suggest_builds (type : BuiltIn) {d : Draft} (hd : d.Unfilled) :
    ∃ all, type.suggest d = .ok all ∧ d.Builds all := by
  cases type with
  | bool =>
    have hoffer : ∀ (e : Draft) (word : Text),
        e.Becomes (if e.remainingLower.isPrefixOf word then e.suggest word none else e) := by
      intro e word
      split_ifs
      · exact becomes_suggest e word none
      · exact .refl e
    exact ((hoffer d (text "true")).trans (hoffer _ (text "false"))).builds hd
  | number | string => exact ⟨.empty, rfl, hd.builds_empty⟩

/-! Children -/

namespace Tree

variable {t : Tree S C M} {source : S} {context : Context S} {d : Draft}

/-- So does every node without suggestions of its own. -/
theorem suggest_builds (h : ¬ t.HasOwnSuggestions) (context : Context S) (hd : d.Unfilled) :
    ∃ all, t.suggest context d = .ok all ∧ d.Builds all := by
  rw [suggest]
  cases hk : t.traits.kind with
  | root => exact ⟨.empty, rfl, hd.builds_empty⟩
  | literal word =>
    dsimp only
    split_ifs
    · exact (Draft.becomes_suggest d word none).builds hd
    · exact ⟨.empty, rfl, hd.builds_empty⟩
  | argument name type provider =>
    rw [HasOwnSuggestions] at h
    push Not at h
    obtain ⟨rfl, b, rfl⟩ := h name type provider hk
    exact b.suggest_builds hd

/-- The node answers whether the source may use it, and refuses to suggest with a syntax error. -/
structure Declines (t : Tree S C M) (source : S) (context : Context S) (d : Draft) : Prop where
  answers : ∃ admitted, t.admits source = .ok admitted
  refuses : ∃ e, t.suggest context d = .error (.rejected e)

/-- If the source may use the node and it has suggestions of its own, it returns what it built from the
draft. -/
def Proposes (t : Tree S C M) (source : S) (context : Context S) (d : Draft) : Prop :=
  t.admits source = .ok true → t.HasOwnSuggestions →
    ∃ all, t.suggest context d = .ok all ∧ d.Builds all

end Tree

namespace Grammar

variable {source : S} {context : Context S} {d : Draft}

/-- Children that answer whether they may be used do not decide whether the others do. -/
theorem invited_filter {keeps : Tree S C M → Bool} {cs : List (Tree S C M)}
    (h : ∀ c ∈ cs, keeps c = false → ∃ admitted, c.admits source = .ok admitted) (d : Draft) :
    invited source (.ok d) (cs.filter keeps) =
      (invited source (.ok d) cs).map fun guests => guests.filter fun guest => keeps guest.1 := by
  induction cs with
  | nil => rfl
  | cons c cs ih =>
    obtain ⟨hc, hcs⟩ := List.forall_mem_cons.mp h
    cases hkeeps : keeps c with
    | false =>
      obtain ⟨admitted, hadmitted⟩ := hc hkeeps
      rw [List.filter_cons_of_neg (by simp [hkeeps]), ih hcs]
      cases admitted <;> cases hrest : invited source (.ok d) cs <;>
        simp [invited, hadmitted, hrest, Except.map, hkeeps]
    | true =>
      rw [List.filter_cons_of_pos hkeeps]
      rcases hadmits : c.admits source with f | ⟨_ | _⟩
      · simp [invited, hadmits, Except.map]
      · simp [invited, hadmits, ih hcs]
      · cases hrest : invited source (.ok d) cs <;>
          simp [invited, hadmits, ih hcs, hrest, Except.map, hkeeps]

/-- What a node suggests, nothing if that fails. -/
def offered (context : Context S) (d : Draft) (t : Tree S C M) : Suggestions :=
  match offer context t d with
  | .ok all => all
  | .error _ => .empty

/-- The node offers what suggestions for the input of the draft are brought to. -/
def OffersSettled (context : Context S) (d : Draft) (t : Tree S C M) : Prop :=
  ∃ ss, (∀ s ∈ ss, s.span.Inside d.input) ∧
    offer context t d = .ok (Suggestions.created d.input ss)

theorem offer_of_declines {t : Tree S C M} (h : t.Declines source context d) :
    offer context t d = .ok .empty := by
  obtain ⟨e, he⟩ := h.refuses
  rw [offer, he]

theorem offersSettled_of_declines {t : Tree S C M} (h : t.Declines source context d) :
    OffersSettled context d t := by
  refine ⟨[], by simp, ?_⟩
  rw [offer_of_declines h]
  simp [Suggestions.created, Suggestions.settled, Suggestion.distinct, Suggestions.commonSpan,
    Suggestions.empty]

theorem offersSettled_of_proposes {t : Tree S C M} (hd : d.Unfilled)
    (h : t.Proposes source context d) (hadmits : t.admits source = .ok true) :
    OffersSettled context d t := by
  have hbuilds : ∃ all, t.suggest context d = .ok all ∧ d.Builds all := by
    by_cases hown : t.HasOwnSuggestions
    · exact h hadmits hown
    · exact t.suggest_builds hown context hd
  obtain ⟨all, hall, hbuilds⟩ := hbuilds
  obtain ⟨ss, hin, rfl⟩ := hbuilds.created hd
  exact ⟨ss, hin, by rw [offer, hall]⟩

/-- What several nodes offer is brought together at once. -/
theorem gather_eq_create {ts : List (Tree S C M)} (h : ∀ t ∈ ts, OffersSettled context d t) :
    (offers context (ts.map (·, d))).bind (Suggestions.merge input) =
      Suggestions.create input (ts.flatMap fun t => (offered context d t).list) := by
  have hoffered : ∀ t ∈ ts, offer context t d = .ok (offered context d t) ∧
      ∃ ss, offered context d t = Suggestions.created d.input ss := by
    intro t ht
    obtain ⟨ss, -, hoffer⟩ := h t ht
    have hvalue : offered context d t = Suggestions.created d.input ss := by rw [offered, hoffer]
    exact ⟨hvalue ▸ hoffer, ss, hvalue⟩
  rw [offers_eq_mapM, mapM_eq_ok_map fun t ht => (hoffered t ht).1]
  refine (Suggestions.merge_eq_create ?_).trans (by rw [List.flatMap_map])
  intro all hall
  obtain ⟨t, ht, rfl⟩ := List.mem_map.mp hall
  exact ⟨d.input, (hoffered t ht).2⟩

theorem flatMap_filter {α β : Type} {f : α → List β} {keeps : α → Bool} {as : List α}
    (h : ∀ a ∈ as, keeps a = false → f a = []) : (as.filter keeps).flatMap f = as.flatMap f := by
  induction as with
  | nil => rfl
  | cons a as ih =>
    obtain ⟨ha, has⟩ := List.forall_mem_cons.mp h
    cases hkeeps : keeps a with
    | false => rw [List.filter_cons_of_neg (by simp [hkeeps]), ih has, List.flatMap_cons, ha hkeeps,
        List.nil_append]
    | true => rw [List.filter_cons_of_pos hkeeps, List.flatMap_cons, List.flatMap_cons, ih has]

/-- Nodes that decline do not decide what the others come to. -/
theorem gather_filter {keeps : Tree S C M → Bool} {cs : List (Tree S C M)} (hd : d.Unfilled)
    (hlost : ∀ t ∈ cs, keeps t = false → t.Declines source context d)
    (hkept : ∀ t ∈ cs, keeps t = true → t.Proposes source context d) :
    ((invited source (.ok d) (cs.filter keeps)).bind (offers context)).bind
        (Suggestions.merge input) =
      ((invited source (.ok d) cs).bind (offers context)).bind (Suggestions.merge input) := by
  rw [invited_filter (fun t ht hkeeps => (hlost t ht hkeeps).answers) d]
  rcases invited_eq source d cs with ⟨f, hf, -⟩ | hok
  · rw [hf]
    rfl
  have hsettled : ∀ t ∈ cs.filter (welcomes source), OffersSettled context d t := by
    intro t ht
    obtain ⟨ht, hwelcome⟩ := List.mem_filter.mp ht
    cases hkeeps : keeps t with
    | false => exact offersSettled_of_declines (hlost t ht hkeeps)
    | true => exact offersSettled_of_proposes hd (hkept t ht hkeeps) (welcomes_iff.mp hwelcome)
  have hguests : ((cs.filter (welcomes source)).map (·, d)).filter (fun guest => keeps guest.1) =
      ((cs.filter (welcomes source)).filter keeps).map (·, d) := List.filter_map
  rw [hok, Except.map, hguests]
  refine (gather_eq_create fun t ht => hsettled t (List.mem_of_mem_filter ht)).trans ?_
  refine Eq.trans (congrArg (Suggestions.create input) ?_) (gather_eq_create hsettled).symm
  refine flatMap_filter fun t ht hkeeps => ?_
  rw [offered, offer_of_declines (hlost t (List.mem_of_mem_filter ht) hkeeps)]
  rfl

/-- Where every node answers whether it may be used, and returns what it built, a list comes out. -/
theorem gather_ok {cs : List (Tree S C M)} (hd : d.Unfilled)
    (hin : ∀ span : Span, span.Inside d.input → span.Inside input)
    (hanswers : ∀ t ∈ cs, ∃ admitted, t.admits source = .ok admitted)
    (hproposes : ∀ t ∈ cs, t.Proposes source context d) :
    ∃ all, ((invited source (.ok d) cs).bind (offers context)).bind (Suggestions.merge input) =
      .ok all := by
  rw [invited_ok hanswers]
  have hsettled : ∀ t ∈ cs.filter (welcomes source), OffersSettled context d t := by
    intro t ht
    obtain ⟨ht, hwelcome⟩ := List.mem_filter.mp ht
    exact offersSettled_of_proposes hd (hproposes t ht) (welcomes_iff.mp hwelcome)
  refine ⟨_, (gather_eq_create hsettled).trans (Suggestions.create_eq_settled fun s hs => ?_)⟩
  obtain ⟨t, ht, hs⟩ := List.mem_flatMap.mp hs
  obtain ⟨ss, hss, hoffer⟩ := hsettled t ht
  rw [offered, hoffer] at hs
  exact hin _ (Suggestions.span_of_mem_settled hss hs).2

variable {g₀ : Grammar S C M} {r : Reader} {p : Parse S C M} {place : Place} {i : NodeId}
  {cursor : Int}

/-- Where a cursor stands, the children below its place are asked with a draft for its token. -/
theorem complete_of_stands (hp : g₀.parse source r = .ok p)
    (h : Stands p r.cursor cursor place i d) (g : Grammar S C M) :
    g.complete p cursor =
      ((invited source (.ok d) (g.resolve i).children).bind
        (offers (p.chain.first.context (r.input.first cursor)))).bind
      (Suggestions.merge r.input) := by
  rw [complete_of_place h.located, h.opened, (reaches_of_parseAt hp).input_eq, source_of_parse hp,
    h.parent, Option.map_some, Option.getD_some]

/-- No place is found before the one where the parse began. -/
theorem complete_before (hp : g₀.parse source r = .ok p) (h : cursor < r.cursor)
    (g : Grammar S C M) : g.complete p cursor = .error Place.notFound := by
  have hfirst := (laid_of_parse hp).2
  have hnone : p.chain.locate cursor = .error Place.notFound := by
    rw [Chain.locate]
    cases p.chain.later <;> rw [Place.locate, if_pos (hfirst ▸ h)]
  rw [complete, hnone]
  rfl

/-- A cursor inside the input stands before the beginning of the parse, where nothing is found, or at a
place below some node. There completing comes to the same with all children of that node, and with those
that are left when some were taken away that decline, if each of the others that is asked returns what
it built from its draft. A list comes out if these answer whether they may be used. -/
theorem complete_without_declining (hp : g₀.parse source r = .ok p) (h0 : 0 ≤ r.cursor)
    (cursor : Int) (hcursor : cursor ≤ r.input.length) :
    (cursor < r.cursor ∧ ∀ g : Grammar S C M, g.complete p cursor = .error Place.notFound) ∨
    ∃ place i d, Stands p r.cursor cursor place i d ∧
      ∀ (g g' : Grammar S C M) (keeps : Tree S C M → Bool),
        (g'.resolve i).children = (g.resolve i).children.filter keeps →
        (∀ t ∈ (g.resolve i).children, keeps t = false →
          t.Declines source (p.chain.first.context (r.input.first cursor)) d) →
        (∀ t ∈ (g.resolve i).children, keeps t = true →
          t.Proposes source (p.chain.first.context (r.input.first cursor)) d) →
        g.complete p cursor = g'.complete p cursor ∧
        ((∀ t ∈ (g'.resolve i).children, ∃ admitted, t.admits source = .ok admitted) →
          ∃ all, g'.complete p cursor = .ok all) := by
  rcases lt_or_ge cursor r.cursor with hbefore | hstart
  · exact .inl ⟨hbefore, complete_before hp hbefore⟩
  obtain ⟨place, i, d, hstands⟩ := exists_stands hp h0 hstart hcursor
  refine .inr ⟨place, i, d, hstands, fun g g' keeps hfilter hlost hkept => ?_⟩
  have hopened := hstands.opened
  rw [(reaches_of_parseAt hp).input_eq] at hopened
  obtain ⟨hinput, -, hunfilled⟩ := Draft.openAt_ok hopened
  rw [complete_of_stands hp hstands g, complete_of_stands hp hstands g', hfilter]
  refine ⟨(gather_filter hunfilled hlost hkept).symm, fun hanswers => ?_⟩
  refine gather_ok hunfilled (fun span hspan => ?_) hanswers fun t ht => ?_
  · have hlength := Text.length_first (h0.trans hstart) hcursor
    rw [hinput] at hspan
    exact ⟨hspan.start_nonneg, hspan.start_le_stop, by have := hspan.stop_le; omega⟩
  · obtain ⟨ht, hkeeps⟩ := List.mem_filter.mp ht
    exact hkept t ht hkeeps

end Grammar

namespace Workbench

variable {w : Workbench S C M}

/-- A node from which a child is removed has its other children. -/
theorem children_removeChild (h : w.Sound) (i : NodeId) (name : Text) :
    ((w.removeChild i name).resolve i).children =
      (w.resolve i).children.filter fun c => c.name ≠ name := by
  rcases h.resolve_cases i with ⟨ht, hid⟩ | ⟨hbare, hno⟩
  · have hamong := ht.replaceAtAll ((w.resolve i).removeChild name)
    rw [hid, ← trees_replace] at hamong
    have hremoved : (w.removeChild i name).resolve i = (w.resolve i).removeChild name := by
      have hresolve := resolve_of_among (h.removeChild i name).ids hamong
      rwa [show ((w.resolve i).removeChild name).id = i from hid] at hresolve
    rw [hremoved]
    rfl
  · rw [removeChild, replace_of_not_mem hno, hbare]
    rfl

/-- A catalogue of which only the titles can be completed: the shelves refuse. -/
def shelf : Provider Unit := fun _ _ => .error (.custom (text "closed"))

def title : Provider Unit := fun _ d =>
  ((d.suggest (text "hamlet") (some (text "play"))).suggest (text "Emma") none).build

def shelves : Tree Unit Unit Unit :=
  .node [0] (.ofKind (.argument (text "shelf") (BuiltIn.string .word).toArgumentType (some shelf))) []

def titles : Tree Unit Unit Unit :=
  .node [2] (.ofKind (.argument (text "title") (BuiltIn.string .greedy).toArgumentType (some title))) []

def library : Workbench Unit Unit Unit :=
  run ⟨true, .standard⟩ [
    .start (text "shelf") (.argument (text "shelf") (BuiltIn.string .word).toArgumentType none),
    .change (text "shelf") (.provider shelf),
    .register (text "shelf"),
    .start (text "title") (.argument (text "title") (BuiltIn.string .greedy).toArgumentType none),
    .change (text "title") (.provider title),
    .register (text "title")]

/-- One child is left without the shelves, and its list is the same as when it was merged with none. -/
theorem complete_without_declining_library :
    ∃ p d all, library.grammar.parse () (.ofText (text "h")) = .ok p ∧
      Grammar.Stands p 0 1 ⟨some [], 0⟩ [] d ∧
      ((library.removeChild [] (text "shelf")).resolve []).children.length = 1 ∧
      library.grammar.complete p 1 = .ok all ∧
      (library.removeChild [] (text "shelf")).grammar.complete p 1 = .ok all ∧
      all = ⟨⟨0, 1⟩, [⟨⟨0, 1⟩, text "Emma", none, none⟩,
        ⟨⟨0, 1⟩, text "hamlet", some (text "play"), none⟩]⟩ := by
  have h : (library.grammar.parse () (.ofText (text "h"))).map (fun p =>
      (p.chain.locate 1, library.grammar.complete p 1)) =
        .ok (.ok ⟨some [], 0⟩, .ok ⟨⟨0, 1⟩, [⟨⟨0, 1⟩, text "Emma", none, none⟩,
          ⟨⟨0, 1⟩, text "hamlet", some (text "play"), none⟩]⟩) := by
    cbv
  obtain ⟨p, hp, hparts⟩ := map_eq_ok_iff.mp h
  obtain ⟨hplace, hcompleted⟩ := Prod.mk.inj hparts
  have hchildren : (library.resolve []).children = [shelves, titles] := by cbv
  have hsound : library.Sound := sound_run _ _
  have hleft := children_removeChild hsound [] (text "shelf")
  rcases Grammar.complete_without_declining hp (by decide) 1 (by decide) with
    ⟨hbefore, -⟩ | ⟨place, i, d, hstands, hsame⟩
  · exact absurd hbefore (by decide)
  obtain rfl := Except.ok.inj (hplace.symm.trans hstands.located)
  obtain rfl : [] = i := Option.some.inj hstands.parent
  have hunfilled := (Draft.openAt_ok hstands.opened).2.2
  have hlost : ∀ t ∈ (library.resolve []).children, decide (t.name ≠ text "shelf") = false →
      t.Declines () (p.chain.first.context (text "h")) d := by
    rw [hchildren]
    refine List.forall_mem_cons.mpr ⟨fun _ => ⟨⟨true, rfl⟩, _, rfl⟩,
      List.forall_mem_singleton.mpr fun hname => absurd hname (by decide)⟩
  have hkept : ∀ t ∈ (library.resolve []).children, decide (t.name ≠ text "shelf") = true →
      t.Proposes () (p.chain.first.context (text "h")) d := by
    rw [hchildren]
    refine List.forall_mem_cons.mpr ⟨fun hname => absurd hname (by decide),
      List.forall_mem_singleton.mpr fun _ _ _ => ?_⟩
    exact ((Draft.becomes_suggest d (text "hamlet") (some (text "play"))).trans
      (Draft.becomes_suggest _ (text "Emma") none)).builds hunfilled
  obtain ⟨hequal, -⟩ := hsame library.grammar (library.removeChild [] (text "shelf")).grammar _
    hleft hlost hkept
  refine ⟨p, d, _, hp, hstands, ?_, hcompleted, hequal ▸ hcompleted, rfl⟩
  rw [hleft, hchildren]
  rfl

end Workbench

end CommandTree
