import CommandTree.Proofs.WordCompletion

/-!
Completing at a cursor inside a line, in a grammar of words. The parse of the line has gone on behind
the cursor, over words and through redirects of which the line up to there knows nothing; but the words
before the cursor lead to one node only, and the place of the cursor is below it. Main statement: lines
that agree up to a cursor are completed there in the same way.
-/

namespace CommandTree

namespace Grammar

variable {S C M : Type} {g : Grammar S C M} {source : S} {p : Parse S C M}

/-- What is completed at a cursor: a token that begins behind words, below the node to which they
lead. Nothing behind the cursor has a part in that. -/
theorem complete_at_cursor (hw : g.OfWords) (hn : g.NamesDistinct) (hc : g.Coherent) {line : Text}
    (hp : g.parse source (.ofText line) = .ok p) {k : Nat} (hk : k ≤ line.length) :
    ∃ ws u rem, g.Leads source g.root ws u ∧ line.take k = spell ws ++ rem ∧ Ends source u rem ∧
      g.complete p k = completedWords source u (line.take k) (spell ws).length := by
  obtain ⟨ws, u, rem, i, hleads, hsplit, hends, rfl, hplace⟩ := parse_halts hw hn hc hp hk
  obtain ⟨hinput, hsource⟩ : p.reader.input = line ∧ p.chain.first.frame.source = source :=
    (parse_walk hw hn source line).keeps hp
  have hstart : (spell ws).length ≤ k := by
    have hlen := congrArg List.length hsplit
    rw [List.length_take, List.length_append] at hlen
    omega
  exact ⟨ws, _, rem, hleads, hsplit, hends,
    complete_words hinput hsource hplace hstart hk (hw _ (hleads.reachable .root))⟩

/-- In a grammar of words, whatever the source and the redirects, completions at a cursor do not depend
on what stands behind it: two lines that agree up to the cursor get the same range and the same list of
suggestions there, or the same fault of a requirement. -/
theorem complete_eq_of_take_eq (hw : g.OfWords) (hn : g.NamesDistinct) (hc : g.Coherent) (source : S)
    {line line' : Text} {p p' : Parse S C M} (hp : g.parse source (.ofText line) = .ok p)
    (hp' : g.parse source (.ofText line') = .ok p') {k : Nat} (hk : k ≤ line.length)
    (hk' : k ≤ line'.length) (hagree : line.take k = line'.take k) :
    g.complete p k = g.complete p' k ∧
      ∀ f, g.complete p k = .error f →
        ∃ t, g.Reachable t ∧ ∃ c ∈ t.children, c.admits source = .error f := by
  obtain ⟨ws, u, rem, hleads, hsplit, hends, hcomplete⟩ := complete_at_cursor hw hn hc hp hk
  obtain ⟨ws', u', rem', hleads', hsplit', hends', hcomplete'⟩ :=
    complete_at_cursor hw hn hc hp' hk'
  -- How far words lead, and where, is determined by what both lines have before the cursor.
  have hsame : spell ws ++ rem = spell ws' ++ rem' := by rw [← hsplit, hagree, hsplit']
  obtain ⟨rfl, -, rfl⟩ := hleads.unique hw hn .root hleads' hsame hends hends'
  refine ⟨by rw [hcomplete, hcomplete', hagree], fun f hf => ?_⟩
  have hreach := hleads.reachable .root
  rcases completedWords_cases source (line.take k) (spell ws).length (hreach.nodup hn) with
    ⟨f', hf', hfails⟩ | ⟨all, hall, -⟩
  · obtain rfl := Except.error.inj (hf'.symm.trans (hcomplete.symm.trans hf))
    exact ⟨u, hreach, hfails⟩
  · simp [hcomplete.symm.trans hf] at hall

/-- Below the redirect two words go on from the letter before the cursor. One line goes on with the first
of them and a word behind it, the other with neither. -/
theorem complete_eq_of_take_eq_drill :
    ∃ p p' all, drill.parse true (.ofText (text "again go on")) = .ok p ∧
      drill.parse true (.ofText (text "again gx")) = .ok p' ∧
      p.matches.length = 3 ∧ p'.matches.length = 1 ∧
      drill.complete p 7 = .ok all ∧ drill.complete p' 7 = .ok all ∧
      all.span = ⟨6, 7⟩ ∧ all.list.map Suggestion.text = [text "go", text "Gone"] := by
  obtain ⟨hn, hc⟩ : drill.NamesDistinct ∧ drill.Coherent := (Workbench.sound_run _ _).grammar
  have hw : drill.OfWords := ofWords_of_root hc (by decide +kernel) (by decide +kernel)
  have h : (drill.parse true (.ofText (text "again go on"))).map (fun p => (p.matches.length,
      (drill.complete p 7).map fun all => (all.span, all.list.map Suggestion.text))) =
        .ok (3, .ok (⟨6, 7⟩, [text "go", text "Gone"])) := by cbv
  have h' : (drill.parse true (.ofText (text "again gx"))).map (fun p => p.matches.length) =
      .ok 1 := by cbv
  obtain ⟨p, hp, hparts⟩ := map_eq_ok_iff.mp h
  obtain ⟨p', hp', hmatches'⟩ := map_eq_ok_iff.mp h'
  obtain ⟨hmatches, hcompleted⟩ := Prod.mk.inj hparts
  obtain ⟨all, hall, hsuggested⟩ := map_eq_ok_iff.mp hcompleted
  obtain ⟨hspan, htexts⟩ := Prod.mk.inj hsuggested
  obtain ⟨hsame, -⟩ := complete_eq_of_take_eq (k := 7) hw hn hc true hp hp' (by decide)
    (by decide) rfl
  exact ⟨p, p', all, hp, hp', hmatches, hmatches', hall, hsame.symm.trans hall, hspan, htexts⟩

end Grammar

end CommandTree
