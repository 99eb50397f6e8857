import CommandTree.Proofs.Pointers
import CommandTree.Proofs.Words
import Mathlib

/-!
Registering a new command. It stands below the root, where it is found by its word, and nothing that was
there before leads to it. Main statement: whatever calls were made before, an input in which the word is
no token is parsed and run as it was before the command was registered.
-/

namespace CommandTree

/-- The tokens that begin at a reader or behind it: the runs without a separator from the reader on, or
from just behind a separator. -/
def Reader.tokens (r : Reader) : List Text := r.rest.splitOn separator

namespace Reader

variable {r : Reader} {n : Nat}

theorem splitOn_append_cons (t more : Text) :
    (t ++ separator :: more).splitOn separator = t.splitOn separator ++ more.splitOn separator :=
  List.splitOnP_append_cons t more (beq_self_eq_true separator)

theorem token_mem_tokens (r : Reader) : r.rest.token ∈ r.tokens := by
  obtain ⟨tail, hsplit, hgap⟩ := Text.token_split r.rest
  have hword : ∀ c ∈ r.rest.token, (c == separator) = false := fun c hc => by
    simpa using List.mem_takeWhile_imp hc
  have hone : r.rest.token.splitOn separator = [r.rest.token] := List.splitOnP_eq_singleton hword
  have htokens : r.tokens = (r.rest.token ++ tail).splitOn separator := congrArg _ hsplit
  rw [htokens]
  rcases hgap with rfl | ⟨more, rfl⟩
  · rw [List.append_nil, hone]
    exact List.mem_singleton_self _
  · rw [splitOn_append_cons, hone]
    exact List.mem_cons_self

/-- Where a token ends and more follows, the tokens behind the separator are among those before. -/
theorem tokens_subset (hb : (r.advance n).atBoundary = true) (h1 : (r.advance n).canRead 1 = true) :
    (r.advance (n + 1)).tokens ⊆ r.tokens := by
  have hpeek : (r.advance n).peek 0 = separator := by simpa [atBoundary, h1] using hb
  have h0 : 0 ≤ r.cursor + n := by
    by_contra hneg
    have hnul : (r.advance n).peek 0 = Byte.nul := by simp [peek, Int.not_le.mp hneg]
    exact absurd (hnul.symm.trans hpeek) (by decide)
  obtain ⟨k, hk⟩ := Int.eq_ofNat_of_zero_le h0
  have hlt : k < r.input.length := by
    have h1 := of_decide_eq_true h1
    rw [advance_cursor, advance_input] at h1
    omega
  have hneg : ¬ (k : Int) < 0 := by omega
  have hget : r.input[k] = separator := by simpa [peek, hk, hlt, hneg] using hpeek
  have hrest : r.rest = (r.input.drop r.cursor.toNat).take (k - r.cursor.toNat) ++
      separator :: (r.advance (n + 1)).rest := by
    have hdrop : (r.input.drop r.cursor.toNat).drop (k - r.cursor.toNat) = r.input.drop k := by
      rw [List.drop_drop]
      congr 1
      omega
    have hnext : (r.advance (n + 1)).rest = r.input.drop (k + 1) := by
      rw [rest, advance_input, advance_cursor]
      congr 1
      omega
    rw [hnext, ← hget, ← List.drop_eq_getElem_cons hlt, ← hdrop, List.take_append_drop, rest]
  rw [tokens, tokens, hrest, splitOn_append_cons]
  exact List.subset_append_right _ _

end Reader

namespace Tree

variable {S C M : Type}

theorem attempt_atBoundary {c : Tree S C M} {r : Reader} {s s' : Segment S C M} {n : Nat}
    (h : c.attempt r s = .ok (s', n)) : (r.advance n).atBoundary = true := by
  unfold attempt at h
  split at h
  · split at h
    · rename_i hb
      obtain ⟨-, rfl⟩ := Prod.mk.inj (Except.ok.inj h)
      exact hb
    · cases h
  · cases h
  · cases h

/-- A new word behind the children is not tried where the next token is another one. -/
theorem relevant_of_appended {i : NodeId} {traits : Traits S C M} {cs : List (Tree S C M)}
    {c : Tree S C M} (hc : c.isLiteral = true) {r : Reader} (hname : c.name ≠ r.rest.token) :
    (node i traits (cs ++ [c])).relevant r = (node i traits cs).relevant r := by
  have harg : c.isArgument = false := by
    unfold isLiteral Kind.isLiteral at hc
    unfold isArgument Kind.isArgument
    split at hc <;> simp_all
  simp [relevant, child?, arguments, hname, harg]

end Tree

namespace Grammar

variable {S C M : Type}

/-- A grammar with one more word below its root. Redirects to what was known lead to the same nodes as
before, or to the root. -/
structure Extends (g g' : Grammar S C M) (word : Text) (known : NodeId → Prop) : Prop where
  root_id : g'.root.id = g.root.id
  relevant : ∀ r : Reader, r.rest.token ≠ word → g'.root.relevant r = g.root.relevant r
  leadsInto : g.root.LeadsInto known
  resolve : ∀ i, known i → g.resolve i = g.root ∧ g'.resolve i = g'.root ∨
    g'.resolve i = g.resolve i ∧ (g.resolve i).LeadsInto known

namespace Extends

variable {g g' : Grammar S C M} {word : Text} {known : NodeId → Prop} {t t' c : Tree S C M}
  {r : Reader} {s : Segment S C M}

/-- The same node, or the root of either grammar. -/
def Same (g g' : Grammar S C M) (known : NodeId → Prop) (t t' : Tree S C M) : Prop :=
  t = g.root ∧ t' = g'.root ∨ t' = t ∧ t.LeadsInto known

theorem relevant_same (h : Extends g g' word known) (ht : Same g g' known t t') (hr : word ∉ r.tokens) :
    t'.relevant r = t.relevant r ∧ ∀ c ∈ t.relevant r, c.LeadsInto known := by
  have hchild : ∀ c ∈ t.relevant r, t.Has c := fun c hc =>
    .child .top (Tree.mem_relevant hc).1
  rcases ht with ⟨rfl, rfl⟩ | ⟨rfl, ht⟩
  · refine ⟨h.relevant r ?_, fun c hc => h.leadsInto.of_has (hchild c hc)⟩
    rintro rfl
    exact hr r.token_mem_tokens
  · exact ⟨rfl, fun c hc => ht.of_has (hchild c hc)⟩

theorem trial_same (h : Extends g g' word known) (hc : c.LeadsInto known) (hr : word ∉ r.tokens)
    (ih : ∀ t t' (r' : Reader) s', r'.ahead < r.ahead → word ∉ r'.tokens → Same g g' known t t' →
      g'.parseAt t' r' s' = g.parseAt t r' s') : g'.trial c r s = g.trial c r s := by
  unfold trial
  split
  · rfl
  · rfl
  cases hm : c.attempt r s with
  | error e => rfl
  | ok matched =>
    obtain ⟨s', n⟩ := matched
    have hb := Tree.attempt_atBoundary hm
    simp only [onward, Reader.advance_advance]
    split
    · rename_i target hredirect
      split
      · rename_i hmore
        rw [ih _ _ _ _ (Reader.ahead_advance_lt hmore (by decide))
          (fun hword => hr (Reader.tokens_subset hb hmore hword))
          (h.resolve target (hc c .top target hredirect))]
      · rfl
    · split
      · rename_i hmore
        rw [ih c c _ _ (Reader.ahead_advance_lt hmore (by decide))
          (fun hword => hr (Reader.tokens_subset hb (canRead_of_le (by decide) hmore) hword))
          (.inr ⟨rfl, hc⟩)]
      · rfl

theorem explore_same (h : Extends g g' word known) {cs : List (Tree S C M)}
    (hcs : ∀ c ∈ cs, c.LeadsInto known) (hr : word ∉ r.tokens)
    (ih : ∀ t t' (r' : Reader) s', r'.ahead < r.ahead → word ∉ r'.tokens → Same g g' known t t' →
      g'.parseAt t' r' s' = g.parseAt t r' s') : g'.explore cs r s = g.explore cs r s := by
  induction cs with
  | nil => rw [explore_nil, explore_nil]
  | cons c cs ihcs =>
    obtain ⟨hc, hcs⟩ := List.forall_mem_cons.mp hcs
    rw [explore_cons, explore_cons, h.trial_same hc hr ih, ihcs hcs]

theorem parseAt_same (h : Extends g g' word known) (ht : Same g g' known t t') (hr : word ∉ r.tokens) :
    g'.parseAt t' r s = g.parseAt t r s := by
  generalize hn : r.ahead = n
  -- Behind a child that matched less lies ahead, and no token is there that was not there before.
  induction n using Nat.strongRecOn generalizing t t' r s with
  | ind n ih =>
    subst hn
    obtain ⟨hrelevant, hknown⟩ := h.relevant_same ht hr
    rw [Grammar.parseAt_eq, Grammar.parseAt_eq, hrelevant,
      h.explore_same hknown hr fun t₁ t₁' r' s' hlt hr' ht' => ih _ hlt ht' hr' rfl]

theorem parse_same (h : Extends g g' word known) (source : S) (hr : word ∉ r.tokens) :
    g'.parse source r = g.parse source r := by
  rw [parse, parse, h.root_id]
  exact h.parseAt_same (.inl ⟨rfl, rfl⟩) hr

end Extends

end Grammar

namespace Workbench

variable {S C M : Type} {w : Workbench S C M}

/-- The workbench with one more node below the root of its tree. -/
def planted (w : Workbench S C M) (t : Tree S C M) : Workbench S C M :=
  { w with
    root := .node w.root.id w.root.traits (w.root.children ++ [t])
    step := w.step + 2 }

theorem Sound.root_not_mem (hw : w.Sound) : w.root.id ∉ Tree.idsOf w.trees.tail := by
  have hids : (w.root.ids ++ Tree.idsOf w.trees.tail).Nodup := hw.ids
  exact fun hi => (List.nodup_append.mp hids).2.2 _ Tree.Has.top.id_mem _ hi rfl

theorem name_build {b : Builder S C M} {word : Text} (hk : b.kind = .literal word) :
    (w.build b).1.name = word := by
  change b.kind.tag.name = word
  rw [hk]
  rfl

/-- A command of a new name becomes the last child of the root, and nothing else changes. -/
theorem register_of_new (hw : w.Sound) {b : Builder S C M} {word : Text} (hk : b.kind = .literal word)
    (hnew : w.root.child? word = none) :
    w.register b = ((.ok (w.build b).1.id, w.planted (w.build b).1),
      w.heard [.logged (logLine (text "registered command '" ++ word ++ text "'"))]) := by
  have hname : (w.build b).1.name = word := name_build hk
  have hroot : (w.build b).1.isRoot = false := by
    change b.kind.isRoot = false
    rw [hk]
    rfl
  have hnone : Tree.anyNamed (w.build b).1.name w.root.children = false := by
    rw [hname, ← Bool.not_eq_true, Tree.anyNamed_iff]
    rintro ⟨c, hc, hcn⟩
    exact Tree.child?_eq_none_iff.mp hnew c hc hcn
  have hadd : (w.build b).2.addChild w.root.id (w.build b).1 =
      (.ok (), w.planted (w.build b).1) := by
    have hput : (w.build b).2.resolve w.root.id = w.root :=
      resolve_of_among hw.ids ⟨w.root, List.mem_cons_self, .top⟩
    have hgrown : w.root.addChild (w.build b).2.step (w.build b).1 =
        .ok (.node w.root.id w.root.traits (w.root.children ++ [(w.build b).1])) := by
      rw [Tree.addChild, hroot, Tree.insertChild, hnone]
      rfl
    have htop : ∀ new : Tree S C M, w.root.replaceAt w.root.id new = new := fun new => by
      cases w.root
      exact if_pos rfl
    have hreplace : ∀ new, (w.build b).2.replace w.root.id new =
        { (w.build b).2 with root := w.root.replaceAt w.root.id new } :=
      replace_of_not_mem_tail hw.root_not_mem
    rw [addChild, hput, hgrown]
    simp only [hnone, hreplace, htop]
    rfl
  have hfound : (w.planted (w.build b).1).root.child? (w.build b).1.name = some (w.build b).1 := by
    rw [← hname] at hnew
    have hold : w.root.children.find? (fun c => c.name = (w.build b).1.name) = none := hnew
    simp [planted, Tree.child?, hold]
  dsimp only [register]
  rw [show (w.build b).2.root.id = w.root.id from rfl, hadd]
  dsimp only
  rw [hfound, hname]
  rfl

/-- The call that registers a command of a new name. -/
theorem run_register {options : Options} {calls : List (Call S C M)} {name word : Text}
    {b : Builder S C M} (hw : w = run options calls) (hb : w.named? name = some b)
    (hk : b.kind = .literal word) (hnew : w.root.child? word = none) :
    run options (calls ++ [.register name]) = w.planted (w.build b).1 := by
  have hsound : w.Sound := hw ▸ sound_run options calls
  rw [run_append_one, ← hw, perform, hb]
  dsimp only
  rw [register_of_new hsound hk hnew]

/-- A new node below the root changes what an identity leads to only where that is the root, or where the
identity is new. -/
theorem resolve_planted (hw : w.Sound) {t : Tree S C M} (hw' : (w.planted t).Sound) {i : NodeId}
    (hroot : i ≠ w.root.id) (hnew : i ∉ t.ids) : (w.planted t).resolve i = w.resolve i := by
  have htrees : (w.planted t).trees = (w.planted t).root :: w.trees.tail := rfl
  have hchildren : (w.planted t).root.children = w.root.children ++ [t] := rfl
  rcases hw.resolve_cases i with ⟨⟨u, hu, hut⟩, hid⟩ | ⟨hbare, hno⟩
  · have hamong : Tree.Among (w.planted t).trees (w.resolve i) := by
      rcases List.mem_cons.mp (show u ∈ w.root :: w.trees.tail from hu) with rfl | hu
      · rcases Tree.has_iff.mp hut with heq | ⟨c, hc, hcu⟩
        · exact absurd (hid.symm.trans (congrArg Tree.id heq)) hroot
        · refine ⟨_, List.mem_cons_self, (Tree.Has.child .top ?_).trans hcu⟩
          rw [hchildren]
          exact List.mem_append_left _ hc
      · exact ⟨u, htrees ▸ List.mem_cons_of_mem _ hu, hut⟩
    have hfound := resolve_of_among hw'.ids hamong
    rwa [hid] at hfound
  · rcases hw'.resolve_cases i with ⟨hamong, hid⟩ | ⟨hbare', -⟩
    · have hmem : i ∈ Tree.idsOf ((w.planted t).root :: w.trees.tail) := hid ▸ hamong.id_mem
      rw [Tree.idsOf_cons, Tree.ids_eq, hchildren, Tree.idsOf_append] at hmem
      have hold : i ∉ w.root.id :: Tree.idsOf w.root.children ++ Tree.idsOf w.trees.tail := by
        rw [← Tree.ids_eq]
        exact hno
      have hid' : (w.planted t).root.id = w.root.id := rfl
      simp only [hid', Tree.idsOf_cons, Tree.idsOf_nil, List.mem_append, List.mem_cons,
        List.not_mem_nil, or_false] at hmem hold
      tauto
    · rw [hbare, hbare']

/-- Registering a command of a new name extends the grammar. -/
theorem extends_planted (hw : w.Sound) {t : Tree S C M} (hw' : (w.planted t).Sound)
    (hlead : w.LeadsInto (NodeId.Before w.step)) (hids : ∀ i ∈ t.ids, ∃ j, i = w.step :: j)
    (ht : t.isLiteral = true) :
    w.grammar.Extends (w.planted t).grammar t.name (NodeId.Before w.step) where
  root_id := rfl
  relevant := fun r hr => Tree.relevant_of_appended ht (Ne.symm hr)
  leadsInto := hlead.trees w.root List.mem_cons_self
  resolve := by
    intro i hi
    by_cases hroot : i = w.root.id
    · have hfound : w.resolve w.root.id = w.root :=
        resolve_of_among hw.ids ⟨w.root, List.mem_cons_self, .top⟩
      have hfound' : (w.planted t).resolve w.root.id = (w.planted t).root :=
        resolve_of_among hw'.ids ⟨(w.planted t).root, List.mem_cons_self, .top⟩
      exact .inl ⟨hroot ▸ hfound, hroot ▸ hfound'⟩
    · refine .inr ⟨resolve_planted hw hw' hroot fun hmem => ?_, hlead.resolve i⟩
      obtain ⟨j, rfl⟩ := hids i hmem
      exact Nat.lt_irrefl w.step (hi w.step rfl)

/-- Registering a command of a new name puts it below the root. An input in which the name is no token is
parsed as before, with the same nodes, values and errors, and what it runs is the same. -/
theorem register_conservative {options : Options} {calls : List (Call S C M)} {name word : Text}
    {b : Builder S C M} {w w' : Workbench S C M} (hw : w = run options calls)
    (hw' : w' = run options (calls ++ [.register name])) (hb : w.named? name = some b)
    (hk : b.kind = .literal word) (hnew : w.root.child? word = none) :
    ∃ t, w.register b = ((.ok t.id, w'),
        w.heard [.logged (logLine (text "registered command '" ++ word ++ text "'"))]) ∧
      t.traits = b.toTraits ∧ w'.root.children = w.root.children ++ [t] ∧
      ∀ source r, word ∉ r.tokens → w'.parse source r = w.parse source r ∧
        ∀ acts : Actions S C M, (w'.grammar.parse source r).map (Parse.execute acts) =
          (w.grammar.parse source r).map (Parse.execute acts) := by
  have hsound : w.Sound := hw ▸ sound_run options calls
  have hlead : w.LeadsInto (NodeId.Before w.step) := hw ▸ leadsInto_run options calls
  have hregister := register_of_new hsound hk hnew
  have hplanted : w' = w.planted (w.build b).1 := hw'.trans (run_register hw hb hk hnew)
  have hsound' : (w.planted (w.build b).1).Sound :=
    hplanted ▸ hw' ▸ sound_run options (calls ++ [.register name])
  have hids : ∀ i ∈ (w.build b).1.ids, ∃ j, i = w.step :: j := by
    intro i hi
    have hcopy : (w.build b).1 = (Tree.node [] b.toTraits b.children).copy w.step := rfl
    rw [hcopy, Tree.ids_copy] at hi
    obtain ⟨j, -, rfl⟩ := List.mem_map.mp hi
    exact ⟨j, rfl⟩
  have hliteral : (w.build b).1.isLiteral = true := by
    change b.kind.isLiteral = true
    rw [hk]
    rfl
  have hextends := extends_planted hsound hsound' hlead hids hliteral
  rw [name_build hk, ← hplanted] at hextends
  refine ⟨(w.build b).1, hplanted ▸ hregister, rfl, by rw [hplanted]; rfl, fun source r hr => ?_⟩
  have hparse : w'.grammar.parse source r = w.grammar.parse source r := hextends.parse_same source hr
  have hheard : w'.heard = w.heard := by
    rw [hplanted]
    rfl
  exact ⟨by rw [parse, parse, hparse, hheard], fun acts => by rw [hparse]⟩

/-- Behind `say` stands a word, and `again` leads back to the root; `list` is yet to be registered. -/
def roster : List (Call Unit Unit Unit) :=
  [.start (text "what") (.argument (text "what") (BuiltIn.string .word).toArgumentType none),
    .change (text "what") (.command ()),
    .start (text "say") (.literal (text "say")),
    .change (text "say") (.built (text "what")),
    .register (text "say"),
    .start (text "again") (.literal (text "again")),
    .change (text "again") (.forward (some (.path [])) none false),
    .register (text "again"),
    .start (text "list") (.literal (text "list")),
    .change (text "list") (.command ())]

/-- The input has the new word only inside a longer one. -/
theorem register_conservative_roster :
    ∃ t, (run ⟨true, .standard⟩ (roster ++ [.register (text "list")])).root.children =
        (run ⟨true, .standard⟩ roster).root.children ++ [t] ∧
      (run ⟨true, .standard⟩ (roster ++ [.register (text "list")])).parse ()
          (.ofText (text "again say lists")) =
        (run ⟨true, .standard⟩ roster).parse () (.ofText (text "again say lists")) ∧
      ((run ⟨true, .standard⟩ roster).grammar.parse () (.ofText (text "again say lists"))).map
        Parse.isDone = .ok true := by
  obtain ⟨t, -, -, hchildren, hsame⟩ := register_conservative
    (b := { Builder.ofKind (.literal (text "list")) with command := some () }) rfl rfl
    (show (run ⟨true, .standard⟩ roster).named? (text "list") = _ by cbv) rfl (by cbv)
  have htokens : text "list" ∉ (Reader.ofText (text "again say lists")).tokens := by decide +kernel
  exact ⟨t, hchildren, (hsame () _ htokens).1, by cbv⟩

end Workbench

end CommandTree
