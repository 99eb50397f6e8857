import CommandTree.Completion
import CommandTree.Execution
import CommandTree.Proofs.Siblings
import CommandTree.Usage

/-!
What a source may not use does not exist for it. Pruning a tree takes away every node whose
requirement turns the source down, with all that is below it; redirects still lead to where they led.
Main statement: parses, runs, completions and usage lines are those of the pruned grammar.
-/

namespace CommandTree

namespace Tree

variable {S C M : Type}

/-- Whether the requirement of the node turns a source down. -/
def refuses (t : Tree S C M) (source : S) : Bool :=
  match t.admits source with
  | .ok false => true
  | _ => false

mutual
/-- The tree without the nodes below it that a source may not use. -/
def prune (source : S) : Tree S C M → Tree S C M
  | node id traits cs => node id traits (pruneAll source cs)

def pruneAll (source : S) : List (Tree S C M) → List (Tree S C M)
  | [] => []
  | c :: cs =>
    if c.refuses source then pruneAll source cs else prune source c :: pruneAll source cs
end

variable {source : S} {t c : Tree S C M} {cs : List (Tree S C M)}

@[simp] theorem id_prune (t : Tree S C M) : (t.prune source).id = t.id := by cases t; rfl

@[simp] theorem traits_prune (t : Tree S C M) : (t.prune source).traits = t.traits := by
  cases t; rfl

@[simp] theorem children_prune (t : Tree S C M) :
    (t.prune source).children = pruneAll source t.children := by
  cases t; rfl

@[simp] theorem name_prune (t : Tree S C M) : (t.prune source).name = t.name := by
  simp [name, tag]

@[simp] theorem usage_prune (t : Tree S C M) : (t.prune source).usage = t.usage := by
  simp [usage, tag]

@[simp] theorem command_prune (t : Tree S C M) : (t.prune source).command = t.command := by
  simp [command]

@[simp] theorem redirect_prune (t : Tree S C M) : (t.prune source).redirect = t.redirect := by
  simp [redirect]

@[simp] theorem isLiteral_prune (t : Tree S C M) : (t.prune source).isLiteral = t.isLiteral := by
  simp [isLiteral]

@[simp] theorem isArgument_prune (t : Tree S C M) :
    (t.prune source).isArgument = t.isArgument := by
  simp [isArgument]

@[simp] theorem admits_prune (t : Tree S C M) : (t.prune source).admits = t.admits := by
  funext s; simp [admits]

@[simp] theorem pruneAll_nil : pruneAll source ([] : List (Tree S C M)) = [] := rfl

theorem pruneAll_cons_of_refuses (h : c.refuses source = true) :
    pruneAll source (c :: cs) = pruneAll source cs := if_pos h

theorem pruneAll_cons_of_not_refuses (h : c.refuses source = false) :
    pruneAll source (c :: cs) = c.prune source :: pruneAll source cs :=
  if_neg (Bool.not_eq_true _ ▸ h)

theorem refuses_iff : c.refuses source = true ↔ c.admits source = .ok false := by
  unfold refuses
  split <;> simp_all

theorem pruneAll_eq_map (source : S) (cs : List (Tree S C M)) :
    pruneAll source cs = (cs.filter fun c => !c.refuses source).map (prune source) := by
  induction cs with
  | nil => rfl
  | cons c cs ih => cases h : c.refuses source <;> simp [pruneAll, h, ih]

theorem pruneAll_append (cs ds : List (Tree S C M)) :
    pruneAll source (cs ++ ds) = pruneAll source cs ++ pruneAll source ds := by
  simp [pruneAll_eq_map]

theorem pruneAll_arguments (t : Tree S C M) :
    pruneAll source t.arguments = (t.prune source).arguments := by
  simp only [arguments, pruneAll_eq_map, children_prune, List.filter_filter, List.filter_map]
  congr 1
  refine List.filter_congr fun c _ => ?_
  simp [Bool.and_comm]

/-- A name leads to the same child as before, unless the source is turned down there. -/
theorem child?_prune (h : (t.children.map name).Nodup) (word : Text) :
    (t.prune source).child? word =
      ((t.child? word).filter fun c => !c.refuses source).map (prune source) := by
  unfold child?
  rw [children_prune]
  generalize t.children = cs at h
  induction cs with
  | nil => rfl
  | cons c cs ih =>
    obtain ⟨hc, hcs⟩ := List.nodup_cons.mp h
    cases hr : c.refuses source with
    | false =>
      rw [pruneAll_cons_of_not_refuses hr]
      by_cases hn : c.name = word <;> simp [hn, hr, ih hcs]
    | true =>
      rw [pruneAll_cons_of_refuses hr, ih hcs]
      by_cases hn : c.name = word
      · -- No other child has the name of the one that is taken away.
        have hnone : cs.find? (fun d => d.name = word) = none := by
          refine List.find?_eq_none.mpr fun d hd hname => ?_
          exact hc (List.mem_map.mpr ⟨d, hd, (of_decide_eq_true hname).trans hn.symm⟩)
        simp [hn, hr, hnone]
      · simp [hn]

theorem relevant_prune (h : (t.children.map name).Nodup) (r : Reader) :
    (t.prune source).relevant r = pruneAll source (t.relevant r) := by
  unfold relevant
  rw [pruneAll_append, pruneAll_arguments, child?_prune h]
  congr 1
  cases t.child? r.rest.token with
  | none => rfl
  | some c =>
    cases hr : c.refuses source <;> cases hl : c.isLiteral <;>
      simp [Option.filter_some, pruneAll, hr, hl]

end Tree

/-- The grammar without the nodes that a source may not use. A redirect leads to the same node, below
which they are missing too. -/
def Grammar.prune {S C M : Type} (g : Grammar S C M) (source : S) : Grammar S C M :=
  ⟨g.root.prune source, fun id => (g.resolve id).prune source⟩

namespace Grammar

variable {S C M : Type} {g : Grammar S C M} {source : S}

/-- Matching a node does not change the source. -/
theorem source_of_attempt {c : Tree S C M} {r : Reader} {s s' : Segment S C M} {n : Nat}
    (h : c.attempt r s = .ok (s', n)) : s'.frame.source = s.frame.source := by
  unfold Tree.attempt Tree.accept at h
  cases hk : c.traits.kind with
  | root => grind
  | literal word => grind [Tree.visit, Frame.push]
  | argument name type provider => grind [Tree.visit, Frame.push, Frame.bind]

/-- A node that refuses the source is passed over. -/
theorem trial_of_refuses {c : Tree S C M} {r : Reader} {s : Segment S C M}
    (h : c.refuses s.frame.source = true) : g.trial c r s = .ok .skipped := by
  rw [trial, Tree.eligible, Tree.refuses_iff.mp h]

theorem explore_cons_of_refuses {c : Tree S C M} {cs : List (Tree S C M)} {r : Reader}
    {s : Segment S C M} (h : c.refuses s.frame.source = true) :
    g.explore (c :: cs) r s = g.explore cs r s := by
  rw [explore_cons, trial_of_refuses h]
  cases g.explore cs r s <;> rfl

/-- A child is tried with the same outcome, if that holds of the parses further on. -/
theorem trial_prune {c : Tree S C M} {r : Reader} {s : Segment S C M}
    (hs : s.frame.source = source) (hc : c.NamesDistinct) (hg : g.NamesDistinct)
    (ih : ∀ (t : Tree S C M) r' (s' : Segment S C M), r'.ahead < r.ahead → t.NamesDistinct →
      s'.frame.source = source → (g.prune source).parseAt (t.prune source) r' s' = g.parseAt t r' s') :
    (g.prune source).trial (c.prune source) r s = g.trial c r s := by
  have heligible : (c.prune source).eligible s.frame r = c.eligible s.frame r := by
    simp [Tree.eligible]
  have hattempt : (c.prune source).attempt r s = c.attempt r s := by
    simp [Tree.attempt, Tree.accept, Tree.visit, Tree.tag]
  unfold trial
  rw [heligible, hattempt]
  split
  · rfl
  · rfl
  cases hm : c.attempt r s with
  | error e => simp
  | ok matched =>
    obtain ⟨s', n⟩ := matched
    have hs' : s'.frame.source = source := (source_of_attempt hm).trans hs
    simp only [onward, Tree.redirect_prune, Reader.advance_advance]
    split
    · rename_i target _
      split
      · rename_i hmore
        exact congrArg _ (ih (g.resolve target) _ (.start s.frame.source (some target) _)
          (Reader.ahead_advance_lt hmore (by decide)) (hg.2 target) hs)
      · rfl
    · split
      · rename_i hmore
        rw [ih c _ _ (Reader.ahead_advance_lt hmore (by decide)) hc hs']
      · rfl

/-- Exploring children leads to the same as exploring those that the source may use. -/
theorem explore_prune {cs : List (Tree S C M)} {r : Reader} {s : Segment S C M}
    (hs : s.frame.source = source) (hcs : ∀ c ∈ cs, c.NamesDistinct) (hg : g.NamesDistinct)
    (ih : ∀ (t : Tree S C M) r' (s' : Segment S C M), r'.ahead < r.ahead → t.NamesDistinct →
      s'.frame.source = source → (g.prune source).parseAt (t.prune source) r' s' = g.parseAt t r' s') :
    (g.prune source).explore (Tree.pruneAll source cs) r s = g.explore cs r s := by
  induction cs with
  | nil => rw [Tree.pruneAll_nil, explore_nil, explore_nil]
  | cons c cs ihcs =>
    obtain ⟨hc, hcs⟩ := List.forall_mem_cons.mp hcs
    cases hr : c.refuses source with
    | true =>
      rw [Tree.pruneAll_cons_of_refuses hr, explore_cons_of_refuses (hs ▸ hr), ihcs hcs]
    | false =>
      rw [Tree.pruneAll_cons_of_not_refuses hr, explore_cons, explore_cons, ihcs hcs,
        trial_prune hs hc hg ih]

theorem parseAt_prune (hg : g.NamesDistinct) {t : Tree S C M} (ht : t.NamesDistinct) {r : Reader}
    {s : Segment S C M} (hs : s.frame.source = source) :
    (g.prune source).parseAt (t.prune source) r s = g.parseAt t r s := by
  generalize hn : r.ahead = n
  -- Behind a child that matched less lies ahead of the reader.
  induction n using Nat.strongRecOn generalizing t r s with
  | ind n ih =>
    subst hn
    rw [parseAt_eq, parseAt_eq, Tree.relevant_prune ht.nodup,
      explore_prune hs (fun c hc => ht.child (Tree.mem_relevant hc).1) hg
        fun t' r' s' hlt ht' hs' => ih _ hlt ht' hs' rfl]

theorem parse_prune (hg : g.NamesDistinct) (r : Reader) :
    (g.prune source).parse source r = g.parse source r := by
  have hroot : (g.prune source).root.id = g.root.id := Tree.id_prune g.root
  rw [parse, parse, hroot]
  exact parseAt_prune hg hg.1 rfl

/-- The outermost frame of a parse keeps the source that the parse is for. -/
theorem Reaches.source_eq {t : Tree S C M} {r : Reader} {s : Segment S C M} {p : Parse S C M}
    (h : g.Reaches t r s p) : p.chain.first.frame.source = s.frame.source := by
  induction h with
  | stop => rfl
  | rest _ _ hm _ => exact source_of_attempt hm
  | child _ _ hm _ _ _ ih => exact ih.trans (source_of_attempt hm)
  | redirect _ _ hm _ _ _ _ => exact source_of_attempt hm

theorem source_of_parse {r : Reader} {p : Parse S C M} (h : g.parse source r = .ok p) :
    p.chain.first.frame.source = source :=
  (reaches_of_parseAt h).source_eq

theorem invited_pruneAll (d : Except Fault Draft) (cs : List (Tree S C M)) :
    invited source d (Tree.pruneAll source cs) =
      (invited source d cs).map (List.map (Prod.map (Tree.prune source) id)) := by
  induction cs with
  | nil => rfl
  | cons c cs ih =>
    cases hr : c.refuses source with
    | true =>
      rw [Tree.pruneAll_cons_of_refuses hr, ih]
      simp only [invited, Tree.refuses_iff.mp hr]
    | false =>
      rw [Tree.pruneAll_cons_of_not_refuses hr]
      cases hc : c.admits source with
      | error f => simp only [invited, Tree.admits_prune, hc]; rfl
      | ok admitted =>
        cases admitted with
        | false => simp [Tree.refuses, hc] at hr
        | true =>
          cases d with
          | error f => simp only [invited, Tree.admits_prune, hc]; rfl
          | ok d =>
            simp only [invited, Tree.admits_prune, hc, ih]
            cases invited source (.ok d) cs <;> rfl

theorem offers_prune (context : Context S) (cs : List (Tree S C M × Draft)) :
    offers context (cs.map (Prod.map (Tree.prune source) id)) = offers context cs := by
  have hoffer : ∀ (c : Tree S C M) d, offer context (c.prune source) d = offer context c d := by
    intro c d
    simp [offer, Tree.suggest]
  induction cs with
  | nil => rfl
  | cons c cs ih => simp [offers, hoffer, ih]

/-- Completing asks only children that the source may use. -/
theorem complete_prune {p : Parse S C M} (hp : p.chain.first.frame.source = source)
    (cursor : Int) : (g.prune source).complete p cursor = g.complete p cursor := by
  have hchildren : ∀ parent : Option NodeId,
      (parent.map fun id => ((g.prune source).resolve id).children).getD [] =
        Tree.pruneAll source ((parent.map fun id => (g.resolve id).children).getD []) := by
    rintro (_ | id)
    · rfl
    · simp [prune]
  unfold complete
  refine congrArg _ (funext fun place => ?_)
  simp only [hchildren, hp, invited_pruneAll]
  cases invited source (Draft.ofInput (p.reader.input.first cursor) (min place.start cursor))
      ((place.parent.map fun id => (g.resolve id).children).getD []) with
  | error f => rfl
  | ok candidates =>
    change (offers _ (candidates.map _) >>= _) = (offers _ candidates >>= _)
    rw [offers_prune]

theorem targetUsage_prune (target : NodeId) :
    (g.prune source).targetUsage target = g.targetUsage target := by
  simp [targetUsage, prune]

mutual
theorem lines_prune (line : Text) : ∀ t : Tree S C M,
    (g.prune source).lines source true line (t.prune source) = g.lines source true line t
  | .node id traits cs => by
    simp only [Tree.prune, lines, targetUsage_prune, linesBelow_pruneAll line cs]
    rfl

theorem linesBelow_pruneAll (line : Text) : ∀ cs : List (Tree S C M),
    (g.prune source).linesBelow source true line (Tree.pruneAll source cs) =
      g.linesBelow source true line cs
  | [] => by rw [Tree.pruneAll_nil, linesBelow, linesBelow]
  | c :: cs => by
    cases hr : c.refuses source with
    | true =>
      obtain ⟨id, traits, ds⟩ := c
      have hnone : ∀ next, g.lines source true next (.node id traits ds) = .ok [] := by
        intro next
        simp [lines, Tree.refuses_iff.mp hr]
      rw [Tree.pruneAll_cons_of_refuses hr, linesBelow_pruneAll line cs, linesBelow]
      simp only [hnone]
      cases g.linesBelow source true line cs <;> rfl
    | false =>
      rw [Tree.pruneAll_cons_of_not_refuses hr, linesBelow, linesBelow]
      simp only [Tree.usage_prune, lines_prune _ c, linesBelow_pruneAll line cs]
end

theorem usable_pruneAll (cs : List (Tree S C M)) :
    usable source (Tree.pruneAll source cs) = (usable source cs).map (List.map (Tree.prune source)) := by
  induction cs with
  | nil => rfl
  | cons c cs ih =>
    cases hr : c.refuses source with
    | true => rw [Tree.pruneAll_cons_of_refuses hr, ih, usable, Tree.refuses_iff.mp hr]
    | false =>
      rw [Tree.pruneAll_cons_of_not_refuses hr, usable, usable, Tree.admits_prune, ih]
      cases hc : c.admits source with
      | error f => rfl
      | ok admitted =>
        cases admitted with
        | false => simp [Tree.refuses, hc] at hr
        | true => cases usable source cs <;> rfl

mutual
theorem brief_prune (u : UsageFormat) (isOptional : Bool) : ∀ t : Tree S C M,
    (g.prune source).brief u source isOptional (t.prune source) = g.brief u source isOptional t
  | .node id traits cs => by
    simp only [Tree.prune, brief, targetUsage_prune, usable_pruneAll, briefOnly_pruneAll u cs]
    cases usable source cs with
    | error f => rfl
    | ok several =>
      match several with
      | [] => rfl
      | [only] => simp [Except.map]; rfl
      | c :: d :: more => simp [Except.map, Function.comp_def]; rfl

theorem briefOnly_pruneAll (u : UsageFormat) : ∀ cs : List (Tree S C M),
    (g.prune source).briefOnly u source (Tree.pruneAll source cs) = g.briefOnly u source cs
  | [] => by rw [Tree.pruneAll_nil, briefOnly, briefOnly]
  | c :: cs => by
    cases hr : c.refuses source with
    | true =>
      rw [Tree.pruneAll_cons_of_refuses hr, briefOnly_pruneAll u cs, briefOnly,
        Tree.refuses_iff.mp hr]
    | false =>
      rw [Tree.pruneAll_cons_of_not_refuses hr, briefOnly, briefOnly, Tree.admits_prune,
        brief_prune u false c, briefOnly_pruneAll u cs]
end

theorem briefAll_pruneAll (u : UsageFormat) (isOptional : Bool) (cs : List (Tree S C M)) :
    (g.prune source).briefAll u source isOptional (Tree.pruneAll source cs) =
      (g.briefAll u source isOptional cs).map (List.map (Prod.map (Tree.prune source) id)) := by
  induction cs with
  | nil => rfl
  | cons c cs ih =>
    cases hr : c.refuses source with
    | true => rw [Tree.pruneAll_cons_of_refuses hr, ih, briefAll, Tree.refuses_iff.mp hr]
    | false =>
      rw [Tree.pruneAll_cons_of_not_refuses hr, briefAll, briefAll, Tree.admits_prune, ih,
        brief_prune]
      cases hc : c.admits source with
      | error f => rfl
      | ok admitted =>
        cases admitted with
        | false => simp [Tree.refuses, hc] at hr
        | true =>
          cases g.brief u source isOptional c <;> cases g.briefAll u source isOptional cs <;> rfl

/-- A source cannot tell a grammar from the one without the nodes that it may not use: whatever it
parses, runs, completes at any cursor or asks about usage, the answers are the same. -/
theorem prune_indistinguishable (g : Grammar S C M) (source : S) (hg : g.NamesDistinct) :
    (∀ r, (g.prune source).parse source r = g.parse source r) ∧
    (∀ r (acts : Actions S C M), ((g.prune source).parse source r).map (Parse.execute acts) =
      (g.parse source r).map (Parse.execute acts)) ∧
    (∀ r cursor, (((g.prune source).parse source r).bind fun p => (g.prune source).complete p cursor) =
      (g.parse source r).bind fun p => g.complete p cursor) ∧
    (g.prune source).allUsage (g.prune source).root source true = g.allUsage g.root source true ∧
    ∀ u, (g.prune source).smartUsage u (g.prune source).root source =
      (g.smartUsage u g.root source).map (List.map (Prod.map (Tree.prune source) id)) := by
  refine ⟨parse_prune hg, fun r acts => by rw [parse_prune hg], fun r cursor => ?_,
    lines_prune [] g.root, fun u => ?_⟩
  · rw [parse_prune hg]
    cases hp : g.parse source r with
    | error f => rfl
    | ok p => exact complete_prune (source_of_parse hp) cursor
  · have h : (g.prune source).briefAll u source g.root.command.isSome
        (Tree.pruneAll source g.root.children) = _ := briefAll_pruneAll u _ g.root.children
    simpa [smartUsage, prune] using h

/-- Only a source with the key may open the vault; `again` leads back to the root. -/
def vault : Grammar Bool Unit Unit :=
  let root : Tree Bool Unit Unit := .node [0] (.ofKind .root)
    [.node [1] ⟨.literal (text "open"), some (), some .ok, none, none, none, false⟩ [],
      .node [2] ⟨.literal (text "look"), some (), none, none, none, none, false⟩ [],
      .node [3] ⟨.literal (text "again"), none, none, none, some [0], none, false⟩ []]
  ⟨root, fun id => if id = [0] then root else .bare id⟩

/-- Without the key there is nothing to open, also behind the redirect. -/
theorem prune_indistinguishable_vault :
    vault.NamesDistinct ∧ (vault.prune false).root.children.length = 2 ∧
      (vault.prune false).parse false (.ofText (text "again open")) =
        vault.parse false (.ofText (text "again open")) ∧
      (vault.parse false (.ofText (text "again open"))).map Parse.isDone = .ok false ∧
      (vault.parse true (.ofText (text "again open"))).map Parse.isDone = .ok true := by
  have hroot : vault.root.NamesDistinct := by decide +kernel
  have hbare : ∀ id, (Tree.bare id : Tree Bool Unit Unit).NamesDistinct := fun id =>
    Tree.namesDistinct_iff.mpr ⟨List.nodup_nil, by simp [Tree.bare]⟩
  have hdistinct : vault.NamesDistinct := by
    refine ⟨hroot, fun id => ?_⟩
    change Tree.NamesDistinct (if id = [0] then vault.root else .bare id)
    split
    · exact hroot
    · exact hbare id
  exact ⟨hdistinct, by cbv, (prune_indistinguishable vault false hdistinct).1 _, by cbv, by cbv⟩

end Grammar

end CommandTree
