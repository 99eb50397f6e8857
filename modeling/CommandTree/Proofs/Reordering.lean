import CommandTree.Proofs.Gathering
import CommandTree.Proofs.Renaming
import CommandTree.Proofs.Visibility

/-!
The order in which words were put below a node. A parse looks a word up by its name and takes only the
arguments in their order; completions are put in order in the end. Main statement: where the children
of nodes stand in another order, in which arguments follow one another as before, parses, runs and the
texts of completions are the same, whatever identities the nodes have.
-/

namespace CommandTree

variable {S C M : Type} {ρ : NodeId → NodeId}

def Traits.rename (ρ : NodeId → NodeId) (traits : Traits S C M) : Traits S C M :=
  { traits with redirect := traits.redirect.map ρ }

namespace Tree

/-- The children of nodes stand in another order, in which arguments follow one another as before.
Besides, the nodes may have other identities. -/
inductive Shuffled (ρ : NodeId → NodeId) : Tree S C M → Tree S C M → Prop
  | node (id : NodeId) (traits : Traits S C M) {cs ds cs' : List (Tree S C M)}
      (children : List.Forall₂ (Shuffled ρ) cs ds) (order : ds.Perm cs')
      (arguments : ds.filter isArgument = cs'.filter isArgument) :
      Shuffled ρ (.node id traits cs) (.node (ρ id) (traits.rename ρ) cs')

/-- Lists of corresponding nodes in another order, in which arguments follow one another as
before. -/
def Reordered (ρ : NodeId → NodeId) (cs cs' : List (Tree S C M)) : Prop :=
  ∃ ds, List.Forall₂ (Shuffled ρ) cs ds ∧ ds.Perm cs' ∧ ds.filter isArgument = cs'.filter isArgument

section

variable {cs cs' : List (Tree S C M)}

theorem Reordered.nil : Reordered ρ ([] : List (Tree S C M)) [] := ⟨[], .nil, .nil, rfl⟩

theorem Reordered.isEmpty_eq (h : Reordered ρ cs cs') : cs'.isEmpty = cs.isEmpty := by
  obtain ⟨ds, hds, horder, -⟩ := h
  have hlength := horder.length_eq
  cases hds <;> cases cs' <;> simp_all

/-- Every node of one list corresponds to one of the other. -/
theorem Reordered.exists_right (h : Reordered ρ cs cs') {c : Tree S C M} (hc : c ∈ cs) :
    ∃ c' ∈ cs', c.Shuffled ρ c' := by
  obtain ⟨ds, hds, horder, -⟩ := h
  obtain ⟨d, hd, hcd⟩ := exists_partner hds hc
  exact ⟨d, horder.mem_iff.mp hd, hcd⟩

theorem Reordered.exists_left (h : Reordered ρ cs cs') {c' : Tree S C M} (hc' : c' ∈ cs') :
    ∃ c ∈ cs, c.Shuffled ρ c' := by
  obtain ⟨ds, hds, horder, -⟩ := h
  exact exists_partner hds.flip (horder.mem_iff.mpr hc')

/-- Leaving out corresponding nodes. -/
theorem Reordered.filter (h : Reordered ρ cs cs') {p : Tree S C M → Bool}
    (hp : ∀ c c' : Tree S C M, c.Shuffled ρ c' → p c' = p c) :
    Reordered ρ (cs.filter p) (cs'.filter p) := by
  obtain ⟨ds, hds, horder, harguments⟩ := h
  have hkept : List.Forall₂ (Shuffled ρ) (cs.filter p) (ds.filter p) :=
    List.rel_filter (fun c c' hc => Iff.of_eq (congrArg (· = true) (hp c c' hc).symm)) hds
  refine ⟨ds.filter p, hkept, horder.filter p, ?_⟩
  rw [List.filter_comm, harguments, List.filter_comm]

end

namespace Shuffled

variable {t t' : Tree S C M}

theorem id_eq (h : t.Shuffled ρ t') : t'.id = ρ t.id := by
  cases h; rfl

theorem traits_eq (h : t.Shuffled ρ t') : t'.traits = t.traits.rename ρ := by
  cases h; rfl

theorem kind_eq (h : t.Shuffled ρ t') : t'.traits.kind = t.traits.kind := by
  rw [h.traits_eq]; rfl

theorem tag_eq (h : t.Shuffled ρ t') : t'.tag = t.tag := congrArg Kind.tag h.kind_eq

theorem name_eq (h : t.Shuffled ρ t') : t'.name = t.name := congrArg Tag.name h.tag_eq

theorem isLiteral_eq (h : t.Shuffled ρ t') : t'.isLiteral = t.isLiteral :=
  congrArg Kind.isLiteral h.kind_eq

theorem isArgument_eq (h : t.Shuffled ρ t') : t'.isArgument = t.isArgument :=
  congrArg Kind.isArgument h.kind_eq

theorem redirect_eq (h : t.Shuffled ρ t') : t'.redirect = t.redirect.map ρ :=
  congrArg Traits.redirect h.traits_eq

theorem admits_eq (h : t.Shuffled ρ t') (source : S) : t'.admits source = t.admits source := by
  rw [admits, admits, h.traits_eq]; rfl

theorem children (h : t.Shuffled ρ t') : Reordered ρ t.children t'.children := by
  cases h with
  | node id traits children order arguments => exact ⟨_, children, order, arguments⟩

theorem names_eq {cs ds : List (Tree S C M)} (h : List.Forall₂ (Shuffled ρ) cs ds) :
    ds.map name = cs.map name := by
  induction h with
  | nil => rfl
  | cons hc _ ih => rw [List.map_cons, List.map_cons, hc.name_eq, ih]

theorem find?_name {cs ds : List (Tree S C M)} (h : List.Forall₂ (Shuffled ρ) cs ds) (word : Text) :
    Option.Rel (Shuffled ρ) (cs.find? fun c => c.name = word) (ds.find? fun c => c.name = word) := by
  induction h with
  | nil => exact .none
  | @cons c d cs ds hc _ ih =>
    rw [List.find?_cons, List.find?_cons, hc.name_eq]
    cases decide (c.name = word) with
    | true => exact .some hc
    | false => exact ih

/-- A name leads to corresponding children, where it is that of one child only. -/
theorem child? (h : t.Shuffled ρ t') (hn : (t.children.map Tree.name).Nodup) (word : Text) :
    Option.Rel (Shuffled ρ) (t.child? word) (t'.child? word) := by
  obtain ⟨ds, hchildren, horder, -⟩ := h.children
  have hds : (ds.map Tree.name).Nodup := names_eq hchildren ▸ hn
  have hn' : (t'.children.map Tree.name).Nodup := (horder.map _).nodup_iff.mp hds
  have hfind : t'.child? word = ds.find? fun c => c.name = word := by
    refine Option.ext fun c => ?_
    rw [child?_eq_some_iff hn', find?_key_eq_some_iff hds, horder.mem_iff]
  rw [hfind]
  exact find?_name hchildren word

/-- The same children are worth trying, in the same order. -/
theorem relevant (h : t.Shuffled ρ t') (hn : (t.children.map Tree.name).Nodup) (r : Reader) :
    List.Forall₂ (Shuffled ρ) (t.relevant r) (t'.relevant r) := by
  obtain ⟨ds, hchildren, -, harguments⟩ := h.children
  refine List.rel_append ?_ ?_
  · have hword := h.child? hn r.rest.token
    generalize t.child? r.rest.token = x, t'.child? r.rest.token = x' at hword
    cases hword with
    | none => exact .nil
    | @some c c' hc =>
      rw [Option.filter_some, Option.filter_some, hc.isLiteral_eq]
      cases c.isLiteral with
      | true => exact .cons hc .nil
      | false => exact .nil
  · rw [arguments, arguments, ← harguments]
    exact List.rel_filter
      (fun _ _ hc => Iff.of_eq (congrArg (· = true) hc.isArgument_eq.symm)) hchildren

theorem visit_eq {c c' : Tree S C M} (h : c.Shuffled ρ c') (span : Span) (s : Segment S C M) :
    c'.visit span (s.rename ρ) = (c.visit span s).rename ρ := by
  have hpush : (s.frame.push ⟨c.id, c.tag, span⟩).rename ρ =
      (s.frame.rename ρ).push (Match.rename ρ ⟨c.id, c.tag, span⟩) := s.frame.rename_push _
  simp only [visit, Segment.rename, hpush, h.id_eq, h.tag_eq, h.traits_eq]
  rfl

theorem accept_eq {c c' : Tree S C M} (h : c.Shuffled ρ c') (r : Reader) (s : Segment S C M) :
    c'.accept r (s.rename ρ) = ((c.accept r s).1.map (Segment.rename ρ), (c.accept r s).2) := by
  have hvisit := h.visit_eq
  unfold accept
  rw [h.kind_eq]
  cases c.traits.kind with
  | root => rfl
  | literal word =>
    dsimp only
    rw [hvisit]
    split_ifs <;> rfl
  | argument name type provider =>
    dsimp only
    rcases type.parse r with ⟨f | v, n⟩
    · rfl
    · exact congrArg (·, n) (congrArg Except.ok (hvisit _
        { s with frame := s.frame.bind name ⟨⟨r.cursor, r.cursor + n⟩, v⟩ }))

/-- A node matches what the corresponding one does. -/
theorem attempt_eq {c c' : Tree S C M} (h : c.Shuffled ρ c') (r : Reader) (s : Segment S C M) :
    c'.attempt r (s.rename ρ) = (c.attempt r s).map fun m => (m.1.rename ρ, m.2) := by
  have hcommand : c'.command = c.command := by rw [command, command, h.traits_eq]; rfl
  unfold attempt
  rw [h.accept_eq, hcommand]
  rcases c.accept r s with ⟨f | s', n⟩
  · cases f <;> rfl
  · dsimp only [Except.map]
    split_ifs <;> rfl

end Shuffled

end Tree

namespace Grammar

/-- Two grammars that differ in the order of children, and in identities, only. -/
structure Shuffled (ρ : NodeId → NodeId) (g g' : Grammar S C M) : Prop where
  root : g.root.Shuffled ρ g'.root
  resolve : ∀ id, (g.resolve id).Shuffled ρ (g'.resolve (ρ id))

/-- No condition and no provider of the grammar can tell identities apart. -/
structure Blind (ρ : NodeId → NodeId) (g : Grammar S C M) : Prop where
  conditions : ∀ t, g.HasNode t → ∀ q, t.traits.contextRequirement = some q →
    ∀ (f : Frame S) (r : Reader), q (f.rename ρ) r = q f r
  providers : ∀ t, g.HasNode t → ∀ name type provider,
    t.traits.kind = .argument name type (some provider) →
      ∀ (c : Context S) (d : Draft), provider (c.rename ρ) d = provider c d

/-- Identities that stay as they are tell nothing. -/
theorem blind_id (g : Grammar S C M) : g.Blind id where
  conditions _ _ _ _ f _ := by rw [f.rename_id]
  providers _ _ _ _ _ _ c _ := by rw [c.rename_id]

variable {g g' : Grammar S C M}

theorem eligible_shuffled (hb : g.Blind ρ) {c c' : Tree S C M} (hc : g.HasNode c)
    (h : c.Shuffled ρ c') (f : Frame S) (r : Reader) :
    c'.eligible (f.rename ρ) r = c.eligible f r := by
  have hcondition : c'.traits.contextRequirement = c.traits.contextRequirement := by
    rw [h.traits_eq]; rfl
  have hsource : (f.rename ρ).source = f.source := rfl
  rw [Tree.eligible, Tree.eligible, h.admits_eq, hcondition, hsource]
  cases hq : c.traits.contextRequirement with
  | none => rfl
  | some q =>
    dsimp only
    rw [hb.conditions c hc q hq]

/-- A child is tried with the same outcome as the corresponding one, if that holds of the parses
further on. -/
theorem trial_shuffled (hg : g.Shuffled ρ g') (hb : g.Blind ρ) {c c' : Tree S C M}
    (hc : g.HasNode c) (h : c.Shuffled ρ c') (r : Reader) (s : Segment S C M)
    (ih : ∀ (t t' : Tree S C M) r' (s' : Segment S C M), r'.ahead < r.ahead → g.HasNode t →
      t.Shuffled ρ t' → g'.parseAt t' r' (s'.rename ρ) = (g.parseAt t r' s').map (Parse.rename ρ)) :
    g'.trial c' r (s.rename ρ) = (g.trial c r s).map (Trial.rename ρ) := by
  have heligible : c'.eligible (s.rename ρ).frame r = c.eligible s.frame r :=
    eligible_shuffled hb hc h s.frame r
  rw [trial, trial, heligible, h.attempt_eq]
  cases c.eligible s.frame r with
  | error f => rfl
  | ok admitted =>
    cases admitted with
    | false => rfl
    | true =>
      cases c.attempt r s with
      | error e => exact congrArg (fun i => Except.ok (Trial.failed i e)) h.id_eq
      | ok matched =>
        obtain ⟨s', n⟩ := matched
        change g'.onward c' s.frame.source (r.advance n) (s'.rename ρ) =
          (g.onward c s.frame.source (r.advance n) s').map _
        rw [onward, onward, h.redirect_eq, Reader.advance_advance]
        cases c.redirect with
        | some target =>
          by_cases hmore : (r.advance n).canRead 1 = true
          · have hbelow : g'.parseAt (g'.resolve (ρ target)) (r.advance (n + 1))
                (.start s.frame.source (some (ρ target)) (r.advance (n + 1)).cursor) = _ :=
              ih (g.resolve target) _ _ (.start s.frame.source (some target) _)
                (Reader.ahead_advance_lt hmore (by decide)) (.inr ⟨target, .top⟩)
                (hg.resolve target)
            simp only [Option.map_some, if_pos hmore, hbelow]
            cases g.parseAt (g.resolve target) _ _ <;> rfl
          · simp only [Option.map_some, if_neg hmore]
            rfl
        | none =>
          by_cases hmore : (r.advance n).canRead 2 = true
          · have hbelow := ih c c' (r.advance (n + 1)) s'
              (Reader.ahead_advance_lt hmore (by decide)) hc h
            simp only [Option.map_none, if_pos hmore, hbelow]
            cases g.parseAt c _ _ <;> rfl
          · simp only [Option.map_none, if_neg hmore]
            rfl

/-- Corresponding children are explored with the same outcome, if that holds of the parses further
on. -/
theorem explore_shuffled (hg : g.Shuffled ρ g') (hb : g.Blind ρ) {cs cs' : List (Tree S C M)}
    (hcs : ∀ c ∈ cs, g.HasNode c) (h : List.Forall₂ (Tree.Shuffled ρ) cs cs') (r : Reader)
    (s : Segment S C M)
    (ih : ∀ (t t' : Tree S C M) r' (s' : Segment S C M), r'.ahead < r.ahead → g.HasNode t →
      t.Shuffled ρ t' → g'.parseAt t' r' (s'.rename ρ) = (g.parseAt t r' s').map (Parse.rename ρ)) :
    g'.explore cs' r (s.rename ρ) = (g.explore cs r s).map (Exploration.rename ρ) := by
  induction h with
  | nil => rw [explore_nil, explore_nil]; rfl
  | @cons c c' cs cs' hc _ rest =>
    obtain ⟨hnode, hnodes⟩ := List.forall_mem_cons.mp hcs
    rw [explore_cons, explore_cons, rest hnodes, trial_shuffled hg hb hnode hc r s ih]
    cases g.trial c r s with
    | error f => rfl
    | ok tried =>
      cases tried with
      | decided p => rfl
      | _ => cases g.explore cs r s <;> simp [Except.map, Trial.rename, Exploration.rename_addTo]

/-- Below corresponding nodes a parse goes the same way. -/
theorem parseAt_shuffled (hg : g.Shuffled ρ g') (hb : g.Blind ρ) (hn : g.NamesDistinct)
    {t t' : Tree S C M} (ht : g.HasNode t) (h : t.Shuffled ρ t') (r : Reader) (s : Segment S C M) :
    g'.parseAt t' r (s.rename ρ) = (g.parseAt t r s).map (Parse.rename ρ) := by
  generalize hm : r.ahead = m
  -- A child or a redirect is followed behind at least one byte, so less lies ahead of it.
  induction m using Nat.strongRecOn generalizing t t' r s with
  | ind m ih =>
    subst hm
    have hnames : (t.children.map Tree.name).Nodup := by
      rcases ht with ht | ⟨i, ht⟩
      · exact hn.1 t ht
      · exact hn.2 i t ht
    have hbelow : ∀ c ∈ t.relevant r, g.HasNode c := fun c hc => ht.child (Tree.mem_relevant hc).1
    have hexplore := explore_shuffled hg hb hbelow (h.relevant hnames r) r s
      fun t t' r' s' hlt ht h => ih _ hlt ht h r' s' rfl
    rw [parseAt_eq, parseAt_eq, hexplore]
    cases g.explore (t.relevant r) r s with
    | error f => rfl
    | ok e => exact congrArg Except.ok (e.rename_conclude s r).symm

/-! Completions -/

theorem welcomes_shuffled (source : S) {c c' : Tree S C M} (h : c.Shuffled ρ c') :
    welcomes source c' = welcomes source c := by
  rw [welcomes, welcomes, h.admits_eq]

theorem offer_shuffled (hb : g.Blind ρ) {c c' : Tree S C M} (hc : g.HasNode c)
    (h : c.Shuffled ρ c') (context : Context S) (d : Draft) :
    offer (context.rename ρ) c' d = offer context c d := by
  suffices hs : c'.suggest (context.rename ρ) d = c.suggest context d by rw [offer, offer, hs]
  unfold Tree.suggest
  rw [h.kind_eq]
  cases hk : c.traits.kind with
  | root | literal => rfl
  | argument name type provider =>
    cases provider with
    | none => rfl
    | some provider => exact hb.providers c hc name type provider hk context d

/-- Reordered children make the same lists in another order, or fail in the same way. -/
theorem offers_reordered (hb : g.Blind ρ) {cs cs' : List (Tree S C M)}
    (hcs : ∀ c ∈ cs, g.HasNode c) (h : Tree.Reordered ρ cs cs') (context : Context S) {d : Draft}
    (hd : d.entries = []) :
    Agree List.Perm (offers context (cs.map (·, d)))
      (offers (context.rename ρ) (cs'.map (·, d))) := by
  obtain ⟨ds, hds, horder, harguments⟩ := h
  -- First the nodes are exchanged for the corresponding ones, then these are put in order.
  have hsame : offers (context.rename ρ) (ds.map (·, d)) = offers context (cs.map (·, d)) := by
    clear horder harguments
    induction hds with
    | nil => rfl
    | cons hc _ ih =>
      obtain ⟨hnode, hnodes⟩ := List.forall_mem_cons.mp hcs
      rw [List.map_cons, List.map_cons, offers, offers, offer_shuffled hb hnode hc, ih hnodes]
  rw [← hsame]
  exact offers_of_perm horder harguments _ hd

/-- The children that may be asked are corresponding ones. -/
theorem gather_reordered (hb : g.Blind ρ) {source : S} {cs cs' : List (Tree S C M)}
    (hcs : ∀ c ∈ cs, g.HasNode c) (hanswers : ∀ c ∈ cs, ∃ admitted, c.admits source = .ok admitted)
    (h : Tree.Reordered ρ cs cs') (context : Context S) (input : Text) (start : Int) :
    Agree List.Perm ((invited source (Draft.ofInput input start) cs).bind (offers context))
      ((invited source (Draft.ofInput input start) cs').bind (offers (context.rename ρ))) := by
  have hasked : Tree.Reordered ρ (cs.filter (welcomes source)) (cs'.filter (welcomes source)) :=
    h.filter fun _ _ => welcomes_shuffled source
  have hanswers' : ∀ c' ∈ cs', ∃ admitted, c'.admits source = .ok admitted := by
    intro c' hc'
    obtain ⟨c, hc, hcc'⟩ := h.exists_left hc'
    rw [hcc'.admits_eq]
    exact hanswers c hc
  cases hd : Draft.ofInput input start with
  | error f =>
    rw [invited_error hanswers, invited_error hanswers', hasked.isEmpty_eq]
    split_ifs
    · exact .ok .nil
    · exact .error f
  | ok d =>
    rw [invited_ok hanswers, invited_ok hanswers']
    exact offers_reordered hb (fun c hc => hcs c (List.mem_of_mem_filter hc)) hasked context
      (entries_ofInput hd)

/-- Completions show the same texts for the same span, or fail in the same way. -/
theorem complete_shuffled (hg : g.Shuffled ρ g') (hb : g.Blind ρ) {p : Parse S C M}
    (hanswers : ∀ t, g.HasNode t →
      ∃ admitted, t.admits p.chain.first.frame.source = .ok admitted) (cursor : Int) :
    Agree Suggestions.SameTexts (g.complete p cursor) (g'.complete (p.rename ρ) cursor) := by
  have hlocate : (p.rename ρ).chain.locate cursor = (p.chain.locate cursor).map (Place.rename ρ) :=
    Place.locate_rename ..
  cases hplace : p.chain.locate cursor with
  | error f =>
    rw [hplace] at hlocate
    rw [complete, complete, hplace, hlocate]
    exact .error f
  | ok place =>
    have hchildren : Tree.Reordered ρ ((place.parent.map fun i => (g.resolve i).children).getD [])
        (((place.rename ρ).parent.map fun i => (g'.resolve i).children).getD []) := by
      rw [Place.rename]
      cases place.parent with
      | none => exact .nil
      | some i => exact (hg.resolve i).children
    have hnodes : ∀ c ∈ (place.parent.map fun i => (g.resolve i).children).getD [], g.HasNode c := by
      intro c hc
      cases hi : place.parent with
      | none =>
        rw [hi] at hc
        cases hc
      | some i =>
        rw [hi] at hc
        exact .inr ⟨i, .child .top hc⟩
    rw [hplace] at hlocate
    rw [complete_of_place hplace, complete_of_place hlocate]
    refine Agree.bind ?_ fun lists lists' => Suggestions.merge_of_perm
    exact gather_reordered hb hnodes (fun c hc => hanswers c (hnodes c hc)) hchildren
      (p.chain.first.context _) _ _

/-- The order in which the words below each node were registered does not matter: a grammar in which
children stand in another order, with the arguments among them following one another as before, parses
every input in the same way; the parses run to the same outcome with the same calls; and they are
completed with the same texts for the same span. Only the identities of nodes are those of the other
grammar, which nothing that is called may look at. -/
theorem order_indistinguishable (hn : g.NamesDistinct) (hg : g.Shuffled ρ g') (hb : g.Blind ρ)
    {source : S} (hanswers : ∀ t, g.HasNode t → ∃ admitted, t.admits source = .ok admitted)
    (r : Reader) :
    g'.parse source r = (g.parse source r).map (Parse.rename ρ) ∧
    ∀ p, g.parse source r = .ok p →
      (∀ acts : Actions S C M, acts.Blind ρ → (p.rename ρ).execute acts =
        ((p.execute acts).1, (p.execute acts).2.map (Event.rename ρ))) ∧
      ∀ cursor, Agree Suggestions.SameTexts (g.complete p cursor)
        (g'.complete (p.rename ρ) cursor) := by
  have hparse : g'.parse source r = (g.parse source r).map (Parse.rename ρ) := by
    rw [parse, parse, hg.root.id_eq]
    exact parseAt_shuffled hg hb hn (.inl .top) hg.root r (.start source (some g.root.id) r.cursor)
  refine ⟨hparse, fun p hp => ⟨fun acts hacts => p.execute_rename hacts, fun cursor => ?_⟩⟩
  refine complete_shuffled hg hb (fun t ht => ?_) cursor
  rw [source_of_parse hp]
  exact hanswers t ht

/-- Gives the first two words below the root each other's identities. -/
def trade (i : NodeId) : NodeId := if i = [1] then [2] else if i = [2] then [1] else i

/-- Some sources may give something, and gold is suggested. -/
def giving (i : NodeId) : Tree Bool Unit Unit :=
  .node i ⟨.literal (text "give"), none, some .ok, none, none, none, false⟩
    [.node [3] ⟨.argument (text "what") (BuiltIn.string .word).toArgumentType
        (some fun _ d => (d.suggest (text "gold") none).build),
      some (), none, none, none, none, false⟩ []]

/-- Leads back to the root. -/
def repeating (i : NodeId) : Tree Bool Unit Unit :=
  .node i ⟨.literal (text "again"), none, none, none, some [0], none, false⟩ []

/-- A truth value is an answer where nothing stands before it. -/
def answering : Tree Bool Unit Unit :=
  .node [4] ⟨.argument (text "answer") BuiltIn.bool.toArgumentType none, some (), none,
    some fun f _ => .ok f.matched.isEmpty, none, none, false⟩ []

def market (cs : List (Tree Bool Unit Unit)) : Grammar Bool Unit Unit :=
  ⟨.node [0] (.ofKind .root) cs, fun i => if i = [0] then .node [0] (.ofKind .root) cs else .bare i⟩

def early : Grammar Bool Unit Unit := market [giving [1], repeating [2], answering]

def late : Grammar Bool Unit Unit := market [repeating [1], answering, giving [2]]

theorem early_shuffled_late : early.Shuffled trade late := by
  have hleaf : ∀ i (traits : Traits Bool Unit Unit),
      (Tree.node i traits []).Shuffled trade (.node (trade i) (traits.rename trade) []) :=
    fun i traits => .node i traits .nil .nil rfl
  have hgiving : (giving [1]).Shuffled trade (giving [2]) :=
    .node [1] ⟨.literal (text "give"), none, some .ok, none, none, none, false⟩
      (.cons (hleaf ..) .nil) (.refl _) rfl
  have hrepeating : (repeating [2]).Shuffled trade (repeating [1]) := hleaf ..
  have hanswering : answering.Shuffled trade answering := hleaf ..
  have hroot : early.root.Shuffled trade late.root :=
    .node [0] (.ofKind .root) (.cons hgiving (.cons hrepeating (.cons hanswering .nil)))
      ((List.Perm.swap ..).trans (.cons _ (.swap ..))) rfl
  refine ⟨hroot, fun i => ?_⟩
  change (if i = [0] then early.root else .bare i : Tree Bool Unit Unit).Shuffled trade
    (if trade i = [0] then late.root else .bare (trade i))
  by_cases hi : i = [0]
  · rw [if_pos hi, if_pos (by rw [hi]; rfl)]
    exact hroot
  · have htrade : trade i ≠ [0] := by
      unfold trade
      split_ifs <;> simp [hi]
    rw [if_neg hi, if_neg htrade]
    exact hleaf ..

/-- The nodes of the first market. -/
theorem early_node {t : Tree Bool Unit Unit} (ht : early.HasNode t) :
    t = .bare t.id ∨ t ∈ early.root :: giving [1] :: ((giving [1]).children ++
      [repeating [2], answering]) :=
  (ht.cases_of_root [0] fun _ => rfl).symm

theorem early_distinct : early.NamesDistinct := by
  have hroot : early.root.NamesDistinct := by decide +kernel
  refine ⟨hroot, fun i => ?_⟩
  change (if i = [0] then early.root else .bare i : Tree Bool Unit Unit).NamesDistinct
  split_ifs
  · exact hroot
  · exact Tree.namesDistinct_bare i

theorem early_blind : early.Blind trade where
  conditions t ht q hq f r := by
    rcases early_node ht with ht | ht
    · rw [ht] at hq
      cases hq
    · simp only [giving, Tree.children, List.cons_append, List.nil_append, List.mem_cons,
        List.not_mem_nil, or_false] at ht
      rcases ht with rfl | rfl | rfl | rfl | rfl <;> cases hq
      exact congrArg Except.ok List.isEmpty_map
  providers t ht name type provider hk c d := by
    rcases early_node ht with ht | ht
    · rw [ht] at hk
      cases hk
    · simp only [giving, Tree.children, List.cons_append, List.nil_append, List.mem_cons,
        List.not_mem_nil, or_false] at ht
      rcases ht with rfl | rfl | rfl | rfl | rfl <;> cases hk
      rfl

/-- Behind `again` the same four texts are suggested, and a whole line is understood in both. -/
theorem order_indistinguishable_market :
    late.parse true (.ofText (text "again give gold")) =
        (early.parse true (.ofText (text "again give gold"))).map (Parse.rename trade) ∧
      (early.parse true (.ofText (text "again give gold"))).map Parse.isDone = .ok true ∧
      ∃ p all all', early.parse true (.ofText (text "again ")) = .ok p ∧
        early.complete p 6 = .ok all ∧ late.complete (p.rename trade) 6 = .ok all' ∧
        all.list.map Suggestion.text =
          [text "again", text "false", text "give", text "true"] ∧
        all'.list.map Suggestion.text = all.list.map Suggestion.text := by
  have hanswers : ∀ t, early.HasNode t → ∃ admitted, t.admits true = .ok admitted := by
    intro t ht
    rcases early_node ht with ht | ht
    · exact ⟨true, by rw [ht]; rfl⟩
    · simp only [giving, Tree.children, List.cons_append, List.nil_append, List.mem_cons,
        List.not_mem_nil, or_false] at ht
      rcases ht with rfl | rfl | rfl | rfl | rfl <;> exact ⟨true, rfl⟩
  have hsame := fun r => order_indistinguishable early_distinct early_shuffled_late early_blind
    hanswers r
  have heval : ((early.parse true (.ofText (text "again "))).bind fun p =>
      (early.complete p 6).map fun all => (p, all)).map (fun a => a.2.list.map Suggestion.text) =
        .ok [text "again", text "false", text "give", text "true"] := by
    cbv
  obtain ⟨⟨p, all⟩, hpair, htexts⟩ := map_eq_ok_iff.mp heval
  cases hp : early.parse true (.ofText (text "again ")) with
  | error f =>
    rw [hp] at hpair
    cases hpair
  | ok p =>
    rw [hp] at hpair
    obtain ⟨all, hall, hpairs⟩ := map_eq_ok_iff.mp hpair
    obtain ⟨rfl, rfl⟩ := Prod.mk.inj hpairs
    have hcomplete := ((hsame _).2 p hp).2 6
    rw [hall] at hcomplete
    generalize hlate : late.complete (p.rename trade) 6 = x at hcomplete
    cases hcomplete with
    | @ok _ all' hall' =>
      exact ⟨(hsame _).1, by cbv, p, all, all', rfl, hall, hlate, htexts, hall'.texts.symm⟩

end Grammar

end CommandTree
