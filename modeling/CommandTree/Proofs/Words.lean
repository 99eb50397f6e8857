import CommandTree.Proofs.Bounds
import CommandTree.Proofs.Exploration
import CommandTree.Proofs.Siblings

/-!
Grammars of words only. There the words of a line lead from node to node without a choice: a token
names at most one child, and the parse below a node either stops there or goes on behind that child.
Main statement: a parse in such a grammar is a walk from token to token, up to the first that names no
child which the source may use.
-/

namespace CommandTree

/-- A text ends, or a separator comes. -/
def Text.AtGap (t : Text) : Prop := t = [] ∨ ∃ more, t = separator :: more

namespace Text

/-- A text is its first token and what comes behind the gap. -/
theorem token_split (t : Text) : ∃ tail, t = t.token ++ tail ∧ AtGap tail := by
  refine ⟨t.dropWhile (· != separator), (List.takeWhile_append_dropWhile).symm, ?_⟩
  cases h : t.dropWhile (· != separator) with
  | nil => exact .inl rfl
  | cons c more =>
    have hc := List.head?_dropWhile_not (· != separator) t
    rw [h] at hc
    exact .inr ⟨more, by simpa using hc⟩

theorem token_append {word tail : Text} (hw : separator ∉ word) (ht : AtGap tail) :
    (word ++ tail).token = word := by
  have hall : ∀ c ∈ word, (c != separator) = true := fun c hc => by
    simpa using fun h : c = separator => hw (h ▸ hc)
  rw [token, List.takeWhile_append_of_pos hall]
  rcases ht with rfl | ⟨more, rfl⟩ <;> simp

/-- A separator that is left of a text has the whole first token before it. -/
theorem token_take {t : Text} {n : Nat} (h : separator ∈ t.take n) :
    token (t.take n) = t.token := by
  obtain ⟨word, tail, hcut, hword⟩ := List.eq_append_cons_of_mem h
  have htext : t = word ++ separator :: (tail ++ t.drop n) := by
    rw [← List.cons_append, ← List.append_assoc, ← hcut, List.take_append_drop]
  rw [hcut, token_append hword (.inr ⟨tail, rfl⟩), htext, token_append hword (.inr ⟨_, rfl⟩)]

end Text

namespace Reader

theorem rest_advance {r : Reader} (h0 : 0 ≤ r.cursor) (n : Nat) :
    (r.advance n).rest = r.rest.drop n := by
  have hn : (r.cursor + n).toNat = r.cursor.toNat + n := by omega
  rw [rest, rest, advance_input, advance_cursor, hn, List.drop_drop]

/-- Behind a word and a separator the reader is still inside its input. -/
theorem inside_behind {r : Reader} {word more : Text} (h0 : 0 ≤ r.cursor)
    (hl : r.cursor ≤ r.input.length) (h : r.rest = word ++ separator :: more) :
    0 ≤ (r.advance (word.length + 1)).cursor ∧
      (r.advance (word.length + 1)).cursor ≤ (r.advance (word.length + 1)).input.length := by
  have hlen := length_rest h0 hl
  rw [h, List.length_append, List.length_cons] at hlen
  rw [advance_cursor, advance_input]
  omega

theorem canRead_iff {r : Reader} (h0 : 0 ≤ r.cursor) (hl : r.cursor ≤ r.input.length) {n : Int} :
    r.canRead n = true ↔ n ≤ r.rest.length := by
  have hrest := length_rest h0 hl
  rw [canRead, decide_eq_true_iff]
  omega

theorem atBoundary_of_gap {r : Reader} (h0 : 0 ≤ r.cursor) (hl : r.cursor ≤ r.input.length)
    (h : r.rest.AtGap) : r.atBoundary = true := by
  rcases h with h | ⟨more, h⟩
  · have hread : r.canRead 1 = false := by
      rw [← Bool.not_eq_true, canRead_iff h0 hl, h]
      simp
    simp [atBoundary, hread]
  · have hpeek : r.input[r.cursor.toNat]? = some separator := by
      have hget : r.rest[0]? = some separator := by rw [h]; rfl
      rwa [rest, List.getElem?_drop, Nat.add_zero] at hget
    have hn : ¬ r.cursor < 0 := by omega
    simp [atBoundary, peek, hn, hpeek]

theorem gap_of_atBoundary {r : Reader} (h0 : 0 ≤ r.cursor) (hl : r.cursor ≤ r.input.length)
    (h : r.atBoundary = true) : r.rest.AtGap := by
  cases hrest : r.rest with
  | nil => exact .inl rfl
  | cons b more =>
    have hread : r.canRead 1 = true := by
      rw [canRead_iff h0 hl, hrest, List.length_cons]
      omega
    have hget : r.input[r.cursor.toNat]? = some b := by
      have hhead : r.rest[0]? = some b := by rw [hrest]; rfl
      rwa [rest, List.getElem?_drop, Nat.add_zero] at hhead
    have hn : ¬ r.cursor < 0 := by omega
    have hb : b = separator := by simpa [atBoundary, hread, peek, hn, hget] using h
    exact .inr ⟨more, by rw [hb]⟩

end Reader

namespace Tree

variable {S C M : Type}

/-- A word without separators, to be tried wherever its source is admitted. -/
structure IsWord (c : Tree S C M) : Prop where
  literal : c.isLiteral = true
  name_ne_nil : c.name ≠ []
  spaceless : separator ∉ c.name
  unconditional : c.traits.contextRequirement = none

variable {c : Tree S C M} {r : Reader}

instance decidableIsWord (c : Tree S C M) : Decidable c.IsWord :=
  decidable_of_iff (c.isLiteral = true ∧ c.name ≠ [] ∧ separator ∉ c.name ∧
      c.traits.contextRequirement.isNone = true)
    ⟨fun ⟨hl, hn, hs, hu⟩ => ⟨hl, hn, hs, Option.isNone_iff_eq_none.mp hu⟩,
      fun ⟨hl, hn, hs, hu⟩ => ⟨hl, hn, hs, Option.isNone_iff_eq_none.mpr hu⟩⟩

theorem kind_of_isLiteral (h : c.isLiteral = true) : c.traits.kind = .literal c.name := by
  unfold isLiteral at h
  unfold name tag
  cases hk : c.traits.kind with
  | literal word => rfl
  | root | argument => simp [hk, Kind.isLiteral] at h

theorem IsWord.kind (h : c.IsWord) : c.traits.kind = .literal c.name := kind_of_isLiteral h.literal

/-- The word at a reader is matched and recorded. -/
def enter (c : Tree S C M) (r : Reader) (s : Segment S C M) : Segment S C M :=
  { c.visit ⟨r.cursor, r.cursor + c.name.length⟩ s with command := c.command }

/-- The record of a node that is matched at a position. -/
def matchAt (c : Tree S C M) (position : Int) : Match :=
  ⟨c.id, c.tag, ⟨position, position + c.name.length⟩⟩

theorem IsWord.eligible (h : c.IsWord) (f : Frame S) (r : Reader) :
    c.eligible f r = c.admits f.source := by
  rw [Tree.eligible, h.unconditional]
  rcases c.admits f.source with f | ⟨_ | _⟩ <;> rfl

theorem attempt_literal (hk : c.traits.kind = .literal c.name) (h0 : 0 ≤ r.cursor)
    (hl : r.cursor ≤ r.input.length) {tail : Text} (hr : r.rest = c.name ++ tail) (ht : tail.AtGap) (s : Segment S C M) :
    c.attempt r s = .ok (c.enter r s, c.name.length) := by
  have hrest := Reader.length_rest h0 hl
  have hlen : c.name.length ≤ r.rest.length := by simp [hr]
  have hgap : (r.advance c.name.length).rest = tail := by
    rw [Reader.rest_advance h0, hr, List.drop_left]
  refine (attempt_word_iff h0 hk).mpr ⟨rfl, ?_, ?_, rfl⟩
  · refine (covers_iff h0).mpr ⟨hl, ?_⟩
    change c.name <+: r.rest
    rw [hr]
    exact List.prefix_append _ _
  · refine Reader.atBoundary_of_gap ?_ ?_ (hgap ▸ ht)
    · rw [Reader.advance_cursor]; omega
    · rw [Reader.advance_cursor, Reader.advance_input]; omega

/-- A word that matches is the next token. -/
theorem token_of_attempt (hk : c.traits.kind = .literal c.name) (hword : separator ∉ c.name)
    (h0 : 0 ≤ r.cursor) {s s' : Segment S C M} {n : Nat} (h : c.attempt r s = .ok (s', n)) :
    c.name = r.rest.token := by
  obtain ⟨rfl, hcovers, hgap, -⟩ := (attempt_word_iff h0 hk).mp h
  obtain ⟨hl, tail, htail⟩ := (covers_iff h0).mp hcovers
  have hrest : r.rest = c.name ++ tail := htail.symm
  have hlen := Reader.length_rest h0 hl
  have hbehind : (r.advance c.name.length).rest = tail := by
    rw [Reader.rest_advance h0, hrest, List.drop_left]
  rw [hrest, List.length_append] at hlen
  have hgap := Reader.gap_of_atBoundary (r := r.advance c.name.length)
    (by rw [Reader.advance_cursor]; omega)
    (by rw [Reader.advance_cursor, Reader.advance_input]; omega) hgap
  rw [hbehind] at hgap
  rw [hrest, Text.token_append hword hgap]

theorem IsWord.attempt (h : c.IsWord) (h0 : 0 ≤ r.cursor) (hl : r.cursor ≤ r.input.length)
    {tail : Text} (hr : r.rest = c.name ++ tail) (ht : tail.AtGap) (s : Segment S C M) :
    c.attempt r s = .ok (c.enter r s, c.name.length) := attempt_literal h.kind h0 hl hr ht s

/-- Where all children are words, at most the one that the next token names is tried. -/
theorem relevant_words {t : Tree S C M} (h : ∀ c ∈ t.children, c.IsWord) (r : Reader) :
    t.relevant r = (t.child? r.rest.token).toList := by
  have hargs : t.arguments = [] := by
    refine List.filter_eq_nil_iff.mpr fun c hc => ?_
    rw [isArgument, (h c hc).kind]
    simp [Kind.isArgument]
  rw [relevant, hargs, List.append_nil]
  cases hc : t.child? r.rest.token with
  | none => rfl
  | some c => simp [Option.filter, (h c (List.mem_of_find?_eq_some hc)).literal]

end Tree

namespace Grammar

variable {S C M : Type}

/-- Wherever a parse can come to, the children are words. -/
def OfWords (g : Grammar S C M) : Prop := ∀ t, g.Reachable t → ∀ c ∈ t.children, c.IsWord

theorem Reachable.of_has {g : Grammar S C M} {t : Tree S C M} (h : g.root.Has t) :
    g.Reachable t := by
  induction h with
  | top => exact .root
  | child _ hc ih => exact ih.child hc

/-- Where redirects stay inside the tree, a parse does. -/
theorem Reachable.mem_subtrees {g : Grammar S C M} (hc : g.Coherent)
    (inside : ∀ t ∈ g.root.subtrees, ∀ i ∈ t.redirect, ∃ u ∈ g.root.subtrees, u.id = i)
    {t : Tree S C M} (h : g.Reachable t) : t ∈ g.root.subtrees := by
  induction h with
  | root => exact Tree.mem_subtrees_iff.mpr .top
  | child _ hchild ih =>
    exact Tree.mem_subtrees_iff.mpr ((Tree.mem_subtrees_iff.mp ih).child hchild)
  | redirect _ leads ih =>
    obtain ⟨u, hu, rfl⟩ := inside _ ih _ leads
    rwa [hc u (.of_has (Tree.mem_subtrees_iff.mp hu))]

/-- A tree of words whose redirects stay inside it is a grammar of words. -/
theorem ofWords_of_root {g : Grammar S C M} (hc : g.Coherent)
    (words : ∀ t ∈ g.root.subtrees, ∀ c ∈ t.children, c.IsWord)
    (inside : ∀ t ∈ g.root.subtrees, ∀ i ∈ t.redirect, ∃ u ∈ g.root.subtrees, u.id = i) :
    g.OfWords := fun t ht => words t (ht.mem_subtrees hc inside)

/-- The parse below a node of words: it stops where no child that the source may use is named by the
next token; or a child is matched, and nothing can follow it; or it goes on behind the child. -/
inductive Walk (g : Grammar S C M) :
    Tree S C M → Reader → Segment S C M → Except Fault (Parse S C M) → Prop
  | stuck {t : Tree S C M} {r : Reader} {s : Segment S C M}
      (unknown : ∀ c ∈ t.children, c.name = r.rest.token → c.admits s.frame.source = .ok false) :
      Walk g t r s (.ok ⟨⟨s, []⟩, r, []⟩)
  | refused {t c : Tree S C M} {r : Reader} {s : Segment S C M} {f : Fault}
      (mem : c ∈ t.children) (named : c.name = r.rest.token)
      (fails : c.admits s.frame.source = .error f) : Walk g t r s (.error f)
  | last {t c : Tree S C M} {r : Reader} {s : Segment S C M} (mem : c ∈ t.children)
      (admitted : c.admits s.frame.source = .ok true) (ahead : r.rest = c.name) :
      Walk g t r s (.ok ⟨⟨c.enter r s, []⟩, r.advance c.name.length, []⟩)
  | blank {t c : Tree S C M} {r : Reader} {s : Segment S C M} (mem : c ∈ t.children)
      (admitted : c.admits s.frame.source = .ok true) (ahead : r.rest = c.name ++ [separator])
      (direct : c.redirect = none) :
      Walk g t r s (.ok ⟨⟨c.enter r s, []⟩, r.advance c.name.length, []⟩)
  | child {t c : Tree S C M} {r : Reader} {s : Segment S C M} {more : Text}
      {x : Except Fault (Parse S C M)} (mem : c ∈ t.children)
      (admitted : c.admits s.frame.source = .ok true)
      (ahead : r.rest = c.name ++ separator :: more) (more_ne_nil : more ≠ [])
      (direct : c.redirect = none)
      (below : Walk g c (r.advance (c.name.length + 1)) (c.enter r s) x) : Walk g t r s x
  | redirect {t c : Tree S C M} {r : Reader} {s : Segment S C M} {more : Text} {target : NodeId}
      {x : Except Fault (Parse S C M)} (mem : c ∈ t.children)
      (admitted : c.admits s.frame.source = .ok true)
      (ahead : r.rest = c.name ++ separator :: more) (leads : c.redirect = some target)
      (below : Walk g (g.resolve target) (r.advance (c.name.length + 1))
        (.start s.frame.source (some target) (r.advance (c.name.length + 1)).cursor) x) :
      Walk g t r s (x.map (·.under (c.enter r s)))

/-- What the parse below a node comes to that has one child to try. -/
theorem conclude_one (g : Grammar S C M) (c : Tree S C M) (r : Reader) (s : Segment S C M) :
    (g.explore [c] r s).map (·.conclude s r) =
      (g.trial c r s).map fun tried => (tried.addTo (.pending [] [])).conclude s r := by
  rw [explore_cons]
  rcases g.trial c r s with f | (_ | _ | _ | _)
  all_goals first | rfl | (simp only [explore_nil]; rfl)

/-- Behind a child that matches, the walk ends or goes on. -/
theorem walk_onward {g : Grammar S C M} {t c : Tree S C M} {r : Reader} {s : Segment S C M}
    {tail : Text} (h0 : 0 ≤ r.cursor) (hl : r.cursor ≤ r.input.length) (hmem : c ∈ t.children)
    (hadmits : c.admits s.frame.source = .ok true) (hsplit : r.rest = c.name ++ tail)
    (hgap : tail.AtGap)
    (hbelow : ∀ more, tail = separator :: more → ∀ u s', u = c ∨ (∃ i ∈ c.redirect, g.resolve i = u) →
      Walk g u (r.advance (c.name.length + 1)) s'
        (g.parseAt u (r.advance (c.name.length + 1)) s')) :
    Walk g t r s ((g.onward c s.frame.source (r.advance c.name.length) (c.enter r s)).map
      fun tried => (tried.addTo (.pending [] [])).conclude s r) := by
  have hrest := Reader.length_rest h0 hl
  have hlen : r.rest.length = c.name.length + tail.length := by rw [hsplit, List.length_append]
  have h0' : 0 ≤ (r.advance c.name.length).cursor := by rw [Reader.advance_cursor]; omega
  have hl' : (r.advance c.name.length).cursor ≤ (r.advance c.name.length).input.length := by
    rw [Reader.advance_cursor, Reader.advance_input]; omega
  have htail : (r.advance c.name.length).rest = tail := by
    rw [Reader.rest_advance h0, hsplit, List.drop_left]
  rw [onward]
  simp only [Reader.canRead_iff h0' hl', htail, Reader.advance_advance]
  cases hd : c.redirect with
  | some target =>
    rcases hgap with rfl | ⟨more, rfl⟩
    · exact .last hmem hadmits (by simpa using hsplit)
    · have hwalk := Walk.redirect hmem hadmits hsplit hd (hbelow more rfl (g.resolve target)
        (.start s.frame.source (some target) (r.advance (c.name.length + 1)).cursor)
        (.inr ⟨target, hd, rfl⟩))
      dsimp only
      rw [if_pos (by simp)]
      revert hwalk
      generalize g.parseAt (g.resolve target) _ _ = x
      cases x <;> exact fun h => h
  | none =>
    rcases hgap with rfl | ⟨_ | ⟨b, more⟩, rfl⟩
    · exact .last hmem hadmits (by simpa using hsplit)
    · exact .blank hmem hadmits hsplit hd
    · have hwalk := Walk.child hmem hadmits hsplit (by simp) hd
        (hbelow _ rfl c (c.enter r s) (.inl rfl))
      dsimp only
      rw [if_pos (by simp; omega)]
      revert hwalk
      generalize g.parseAt c _ _ = x
      cases x <;> exact fun h => h

/-- Every parse in a grammar of words is a walk. -/
theorem walk_parseAt {g : Grammar S C M} (hw : g.OfWords) (hn : g.NamesDistinct) {t : Tree S C M}
    {r : Reader} (ht : g.Reachable t) (h0 : 0 ≤ r.cursor) (hl : r.cursor ≤ r.input.length)
    (s : Segment S C M) : Walk g t r s (g.parseAt t r s) := by
  generalize hm : r.rest.length = m
  -- Behind a child at least a separator less lies ahead.
  induction m using Nat.strongRecOn generalizing t r s with
  | ind m ih =>
    subst hm
    have hnodup := ht.nodup hn
    rw [parseAt_eq, Tree.relevant_words (hw t ht)]
    cases hc : t.child? r.rest.token with
    | none =>
      rw [Option.toList_none, explore_nil]
      exact .stuck fun c hmem hname => absurd hname (Tree.child?_eq_none_iff.mp hc c hmem)
    | some c =>
      obtain ⟨hmem, hname⟩ := (Tree.child?_eq_some_iff hnodup).mp hc
      have hword := hw t ht c hmem
      obtain ⟨tail, hsplit, hgap⟩ := r.rest.token_split
      rw [← hname] at hsplit
      rw [Option.toList_some, conclude_one, trial, hword.eligible]
      cases hadmits : c.admits s.frame.source with
      | error f => exact .refused hmem hname hadmits
      | ok admitted =>
        cases admitted with
        | false =>
          refine .stuck fun d hd hdn => ?_
          have hcd := (Tree.child?_eq_some_iff hnodup).mpr ⟨hd, hdn⟩
          rw [hc] at hcd
          exact Option.some.inj hcd ▸ hadmits
        | true =>
          rw [hword.attempt h0 hl hsplit hgap]
          refine walk_onward h0 hl hmem hadmits hsplit hgap ?_
          rintro more rfl u s' hu
          have hlen := congrArg List.length hsplit
          rw [List.length_append, List.length_cons] at hlen
          have hreach : g.Reachable u := by
            rcases hu with rfl | ⟨i, hi, rfl⟩
            · exact ht.child hmem
            · exact (ht.child hmem).redirect hi
          obtain ⟨h0', hl'⟩ := Reader.inside_behind h0 hl hsplit
          refine ih _ ?_ hreach h0' hl' s' rfl
          rw [Reader.rest_advance h0, List.length_drop]
          omega

/-! Where words lead -/

/-- The node below which the parse goes on behind a node. -/
def beyond (g : Grammar S C M) (c : Tree S C M) : Tree S C M :=
  match c.redirect with
  | some target => g.resolve target
  | none => c

theorem Reachable.beyond {g : Grammar S C M} {c : Tree S C M} (h : g.Reachable c) :
    g.Reachable (g.beyond c) := by
  unfold Grammar.beyond
  cases hd : c.redirect with
  | none => exact h
  | some target => exact h.redirect hd

/-- Words lead a source from node to node, each to a child that it may use and beyond. -/
inductive Leads (g : Grammar S C M) (source : S) :
    Tree S C M → List Text → Tree S C M → Prop
  | here (t : Tree S C M) : Leads g source t [] t
  | word {t c u : Tree S C M} {rest : List Text} (mem : c ∈ t.children)
      (admitted : c.admits source = .ok true) (onwards : Leads g source (g.beyond c) rest u) :
      Leads g source t (c.name :: rest) u

/-- Words, each with a separator behind it. -/
def spell (words : List Text) : Text := words.flatMap fun word => word ++ [separator]

@[simp] theorem spell_nil : spell [] = [] := rfl

@[simp] theorem spell_cons (word : Text) (words : List Text) :
    spell (word :: words) = word ++ separator :: spell words := by
  simp [spell]

theorem Leads.reachable {g : Grammar S C M} {source : S} {t u : Tree S C M} {ws : List Text}
    (h : g.Leads source t ws u) (ht : g.Reachable t) : g.Reachable u := by
  induction h with
  | here => exact ht
  | word mem _ _ ih => exact ih (ht.child mem).beyond

/-- Nothing more leads on from a node: what is left is no whole token yet, or names no child that
the source may use. -/
def Ends (source : S) (u : Tree S C M) (rem : Text) : Prop :=
  separator ∉ rem ∨ ∀ c ∈ u.children, c.name = rem.token → c.admits source = .ok false

/-- Nothing ends before a whole word that the source may use. -/
theorem not_ends {source : S} {t c : Tree S C M} {more : Text} (hword : c.IsWord)
    (mem : c ∈ t.children) (admitted : c.admits source = .ok true) :
    ¬ Ends source t (c.name ++ separator :: more) := by
  rintro (hsep | hnone)
  · exact hsep (List.mem_append_right _ List.mem_cons_self)
  · have htoken : (c.name ++ separator :: more).token = c.name :=
      Text.token_append hword.spaceless (.inr ⟨more, rfl⟩)
    have hfalse := hnone c mem htoken.symm
    simp [admitted] at hfalse

/-- How far words lead is determined by the line. -/
theorem Leads.unique {g : Grammar S C M} (hw : g.OfWords) (hn : g.NamesDistinct) {source : S}
    {t u u' : Tree S C M} {ws ws' : List Text} {rem rem' : Text} (ht : g.Reachable t)
    (h : g.Leads source t ws u) (h' : g.Leads source t ws' u')
    (heq : spell ws ++ rem = spell ws' ++ rem') (hrem : Ends source u rem)
    (hends : Ends source u' rem') : ws = ws' ∧ rem = rem' ∧ u = u' := by
  induction h generalizing ws' with
  | here t =>
    cases h' with
    | here => exact ⟨rfl, heq, rfl⟩
    | @word _ c' _ rest' mem' admitted' =>
      have heq : rem = c'.name ++ separator :: (spell rest' ++ rem') := by simpa using heq
      exact absurd (heq ▸ hrem) (not_ends (hw t ht c' mem') mem' admitted')
  | @word t c u rest mem admitted onwards ih =>
    have hword := hw t ht c mem
    have htoken : (spell (c.name :: rest) ++ rem).token = c.name := by
      rw [spell_cons, List.append_assoc]
      exact Text.token_append hword.spaceless (.inr ⟨_, rfl⟩)
    cases h' with
    | here =>
      have heq : rem' = c.name ++ separator :: (spell rest ++ rem) := by simpa using heq.symm
      exact absurd (heq ▸ hends) (not_ends hword mem admitted)
    | @word _ c' _ rest' mem' admitted' onwards' =>
      have hname : c.name = c'.name := by
        rw [← htoken, heq, spell_cons, List.append_assoc]
        exact Text.token_append (hw t ht c' mem').spaceless (.inr ⟨_, rfl⟩)
      obtain rfl : c = c' := List.inj_on_of_nodup_map (ht.nodup hn) mem mem' hname
      have htail : spell rest ++ rem = spell rest' ++ rem' := by simpa using heq
      obtain ⟨rfl, rfl, rfl⟩ := ih (ht.child mem).beyond onwards' htail hrem
      exact ⟨rfl, rfl, rfl⟩

/-- Two words among siblings with the same text ahead are the same. -/
theorem same_child {g : Grammar S C M} (hw : g.OfWords) (hn : g.NamesDistinct)
    {t c c' : Tree S C M} {tail tail' : Text} (ht : g.Reachable t) (hc : c ∈ t.children)
    (hc' : c' ∈ t.children) (hgap : tail.AtGap) (hgap' : tail'.AtGap)
    (heq : c.name ++ tail = c'.name ++ tail') : c = c' ∧ tail = tail' := by
  have htoken := Text.token_append (hw t ht c hc).spaceless hgap
  rw [heq, Text.token_append (hw t ht c' hc').spaceless hgap'] at htoken
  obtain rfl : c = c' := List.inj_on_of_nodup_map (ht.nodup hn) hc hc' htoken.symm
  exact ⟨rfl, List.append_cancel_left heq⟩

theorem Walk.faults {g : Grammar S C M} {t : Tree S C M} {r : Reader} {s : Segment S C M}
    {x : Except Fault (Parse S C M)} {f : Fault} (h : g.Walk t r s x) (ht : g.Reachable t)
    (hx : x = .error f) :
    ∃ u, g.Reachable u ∧ ∃ c ∈ u.children, c.admits s.frame.source = .error f := by
  induction h with
  | stuck | last | blank => cases hx
  | @refused t c r s f' mem named fails =>
    cases hx
    exact ⟨t, ht, c, mem, fails⟩
  | child mem _ _ _ _ _ ih => exact ih (ht.child mem) hx
  | redirect mem _ _ leads _ ih =>
    exact ih ((ht.child mem).redirect leads) (map_eq_error_iff.mp hx)

end Grammar

/-- All nodes that a parse matched, in order. -/
def Parse.matches {S C M : Type} (p : Parse S C M) : List Match :=
  p.chain.all.flatMap fun s => s.frame.matched

namespace Grammar

variable {S C M : Type} {g : Grammar S C M}

theorem matches_under (p : Parse S C M) (s : Segment S C M) :
    (p.under s).matches = s.frame.matched ++ p.matches := rfl

theorem matches_single (s : Segment S C M) (r : Reader) (es : List (NodeId × SyntaxError)) :
    (⟨⟨s, []⟩, r, es⟩ : Parse S C M).matches = s.frame.matched := List.append_nil _

theorem rest_behind {r : Reader} {word more : Text} (h0 : 0 ≤ r.cursor)
    (hr : r.rest = word ++ separator :: more) : (r.advance (word.length + 1)).rest = more := by
  rw [Reader.rest_advance h0, hr, ← List.drop_drop, List.drop_left]
  rfl

/-- Words lead from a node, and from a reader on, to a match. -/
def Led (g : Grammar S C M) (source : S) (t : Tree S C M) (r : Reader) (m : Match) : Prop :=
  ∃ ws u c more, g.Leads source t ws u ∧ c ∈ u.children ∧ c.admits source = .ok true ∧
    r.rest = spell ws ++ (c.name ++ more) ∧ m = c.matchAt (r.cursor + (spell ws).length)

theorem Led.beyond {source : S} {t c : Tree S C M} {r : Reader} {more : Text} {m : Match}
    (h0 : 0 ≤ r.cursor) (mem : c ∈ t.children) (admitted : c.admits source = .ok true)
    (ahead : r.rest = c.name ++ separator :: more)
    (h : g.Led source (g.beyond c) (r.advance (c.name.length + 1)) m) : g.Led source t r m := by
  obtain ⟨ws, u, d, rest, hleads, hd, hadmits, hrest, rfl⟩ := h
  rw [rest_behind h0 ahead] at hrest
  refine ⟨c.name :: ws, u, d, rest, .word mem admitted hleads, hd, hadmits, ?_, ?_⟩
  · rw [ahead, hrest, spell_cons, List.append_assoc]
    rfl
  · rw [spell_cons, Reader.advance_cursor, List.length_append, List.length_cons]
    congr 1
    omega

theorem beyond_direct {c : Tree S C M} (h : c.redirect = none) : g.beyond c = c := by
  rw [beyond, h]

theorem beyond_redirect {c : Tree S C M} {target : NodeId} (h : c.redirect = some target) :
    g.beyond c = g.resolve target := by
  rw [beyond, h]

theorem led_of_enter {t c : Tree S C M} {r : Reader} {s : Segment S C M} {more : Text} {m : Match}
    (mem : c ∈ t.children) (admitted : c.admits s.frame.source = .ok true)
    (ahead : r.rest = c.name ++ more) (hm : m ∈ (c.enter r s).frame.matched) :
    m ∈ s.frame.matched ∨ g.Led s.frame.source t r m := by
  rcases List.mem_append.mp hm with hm | hm
  · exact .inl hm
  · refine .inr ⟨[], t, c, more, .here t, mem, admitted, ahead, ?_⟩
    simpa [Tree.matchAt] using hm

/-- Words lead to every node that a walk matches. -/
theorem Walk.matched {t : Tree S C M} {r : Reader} {s : Segment S C M}
    {x : Except Fault (Parse S C M)} {p : Parse S C M} {m : Match} (h : g.Walk t r s x)
    (h0 : 0 ≤ r.cursor) (hp : x = .ok p) (hm : m ∈ p.matches) :
    m ∈ s.frame.matched ∨ g.Led s.frame.source t r m := by
  have hnext : ∀ (r : Reader) (n : Nat), 0 ≤ r.cursor → 0 ≤ (r.advance n).cursor := by
    intro r n hr
    rw [Reader.advance_cursor]
    omega
  induction h generalizing p with
  | refused => cases hp
  | stuck =>
    cases hp
    exact .inl (by rwa [matches_single] at hm)
  | last mem admitted ahead =>
    cases hp
    rw [matches_single] at hm
    exact led_of_enter mem admitted (ahead.trans (List.append_nil _).symm) hm
  | blank mem admitted ahead =>
    cases hp
    rw [matches_single] at hm
    exact led_of_enter mem admitted ahead hm
  | child mem admitted ahead _ direct _ ih =>
    rcases ih (hnext _ _ h0) hp hm with hm | hled
    · exact led_of_enter mem admitted ahead hm
    · refine .inr (.beyond h0 mem admitted ahead ?_)
      rw [beyond_direct direct]
      exact hled
  | redirect mem admitted ahead leads _ ih =>
    obtain ⟨q, hq, rfl⟩ := map_eq_ok_iff.mp hp
    rcases List.mem_append.mp hm with hm | hm
    · exact led_of_enter mem admitted ahead hm
    · rcases ih (hnext _ _ h0) hq hm with hm | hled
      · exact absurd hm List.not_mem_nil
      · refine .inr (.beyond h0 mem admitted ahead ?_)
        rw [beyond_redirect leads]
        exact hled

/-- Where the next token names a child that the source may use, the walk goes through the child. -/
theorem Walk.through (hw : g.OfWords) (hn : g.NamesDistinct) {t c : Tree S C M} {r : Reader}
    {s : Segment S C M} {x : Except Fault (Parse S C M)} {tail : Text} (h : g.Walk t r s x)
    (ht : g.Reachable t) (hc : c ∈ t.children) (hadmits : c.admits s.frame.source = .ok true)
    (hr : r.rest = c.name ++ tail) (hgap : tail.AtGap) :
    ((tail = [] ∨ tail = [separator] ∧ c.redirect = none) ∧
      x = .ok ⟨⟨c.enter r s, []⟩, r.advance c.name.length, []⟩) ∨
    ∃ more, tail = separator :: more ∧
      ((more ≠ [] ∧ c.redirect = none ∧
        g.Walk c (r.advance (c.name.length + 1)) (c.enter r s) x) ∨
      ∃ target y, c.redirect = some target ∧ x = y.map (·.under (c.enter r s)) ∧
        g.Walk (g.resolve target) (r.advance (c.name.length + 1))
          (.start s.frame.source (some target) (r.advance (c.name.length + 1)).cursor) y) := by
  have htoken : c.name = r.rest.token := by
    rw [hr, Text.token_append (hw t ht c hc).spaceless hgap]
  have hsame : ∀ {d : Tree S C M} {tail' : Text}, d ∈ t.children → tail'.AtGap →
      r.rest = d.name ++ tail' → c = d ∧ tail = tail' := fun hd hgap' hr' =>
    same_child hw hn ht hc hd hgap hgap' (hr.symm.trans hr')
  cases h with
  | stuck unknown => simp [unknown c hc htoken] at hadmits
  | refused mem named fails =>
    obtain rfl := List.inj_on_of_nodup_map (ht.nodup hn) hc mem (htoken.trans named.symm)
    simp [fails] at hadmits
  | last mem _ ahead =>
    obtain ⟨rfl, rfl⟩ := hsame mem (.inl rfl) (ahead.trans (List.append_nil _).symm)
    exact .inl ⟨.inl rfl, rfl⟩
  | blank mem _ ahead direct =>
    obtain ⟨rfl, rfl⟩ := hsame mem (.inr ⟨[], rfl⟩) ahead
    exact .inl ⟨.inr ⟨rfl, direct⟩, rfl⟩
  | child mem _ ahead more_ne_nil direct below =>
    obtain ⟨rfl, rfl⟩ := hsame mem (.inr ⟨_, rfl⟩) ahead
    exact .inr ⟨_, rfl, .inl ⟨more_ne_nil, direct, below⟩⟩
  | redirect mem _ ahead leads below =>
    obtain ⟨rfl, rfl⟩ := hsame mem (.inr ⟨_, rfl⟩) ahead
    exact .inr ⟨_, rfl, .inr ⟨_, _, leads, rfl, below⟩⟩

/-- Where words lead to a word that the line ends with, the parse gets there. -/
theorem Walk.arrives (hw : g.OfWords) (hn : g.NamesDistinct) {source : S} {t u c : Tree S C M}
    {ws : List Text} {r : Reader} {s : Segment S C M} {x : Except Fault (Parse S C M)}
    (h : g.Walk t r s x) (hs : s.frame.source = source) (ht : g.Reachable t) (h0 : 0 ≤ r.cursor)
    (hleads : g.Leads source t ws u) (hc : c ∈ u.children) (hadmits : c.admits source = .ok true)
    (hr : r.rest = spell ws ++ c.name) :
    ∃ p, x = .ok p ∧ p.reader = r.advance r.rest.length ∧
      p.matches.getLast? = some (c.matchAt (r.cursor + (spell ws).length)) := by
  have hne := (hw u (hleads.reachable ht) c hc).name_ne_nil
  induction hleads generalizing r s x with
  | here t =>
    have hr : r.rest = c.name ++ [] := by simpa using hr
    rcases h.through hw hn ht hc (hs ▸ hadmits) hr (.inl rfl) with ⟨-, rfl⟩ | ⟨more, hmore, -⟩
    · refine ⟨_, rfl, by rw [hr, List.append_nil], ?_⟩
      rw [matches_single]
      simp [Tree.enter, Tree.visit, Frame.push, Tree.matchAt]
    · cases hmore
  | @word t d u rest mem admitted onwards ih =>
    have hr : r.rest = d.name ++ separator :: (spell rest ++ c.name) := by simpa using hr
    have hd := ht.child mem
    have h0' : 0 ≤ (r.advance (d.name.length + 1)).cursor := by rw [Reader.advance_cursor]; omega
    have hmore := rest_behind h0 hr
    have hlen := congrArg List.length hr
    have hposition : (r.advance (d.name.length + 1)).cursor + (spell rest).length =
        r.cursor + (spell (d.name :: rest)).length := by
      rw [Reader.advance_cursor, spell_cons, List.length_append, List.length_cons]
      omega
    have hreader : (r.advance (d.name.length + 1)).advance
        (r.advance (d.name.length + 1)).rest.length = r.advance r.rest.length := by
      rw [Reader.advance_advance, hmore]
      congr 1
      rw [hlen]
      simp
      omega
    rcases h.through hw hn ht mem (hs ▸ admitted) hr (.inr ⟨_, rfl⟩) with
      ⟨hends, -⟩ | ⟨more, heq, hon⟩
    · simp [hne] at hends
    · obtain rfl : spell rest ++ c.name = more := List.tail_eq_of_cons_eq heq
      rcases hon with ⟨-, direct, below⟩ | ⟨target, y, leads, rfl, below⟩
      · rw [beyond_direct direct] at onwards ih
        obtain ⟨p, rfl, hread, hlast⟩ := ih below hs hd h0' hc hmore
        exact ⟨p, rfl, hread.trans hreader, hposition ▸ hlast⟩
      · rw [beyond_redirect leads] at onwards ih
        obtain ⟨p, rfl, hread, hlast⟩ := ih below hs (hd.redirect leads) h0' hc hmore
        refine ⟨p.under (d.enter r s), rfl, hread.trans hreader, ?_⟩
        rw [matches_under, List.getLast?_append, hlast, ← hposition]
        rfl

end Grammar

end CommandTree
