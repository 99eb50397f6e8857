import CommandTree.Proofs.Bounds
import CommandTree.Proofs.Exploration
import Mathlib

/-!
What a parse says about its input. Each frame is that of a trail: a path of children below a root,
every node of which may be used where it stands, one separator apart from the node before it; and a
redirect of the last node leads to the root of the next trail. Main statement: every parse has such
a derivation, also with redirects that lead back.
-/

namespace CommandTree

/-- A node is somewhere in a tree. -/
inductive Tree.Has {S C M : Type} (top : Tree S C M) : Tree S C M → Prop
  | top : Has top top
  | child {t c : Tree S C M} (h : Has top t) (hc : c ∈ t.children) : Has top c

/-- A node of the grammar: in its tree, or in the tree below the target of a redirect. -/
def Grammar.HasNode {S C M : Type} (g : Grammar S C M) (t : Tree S C M) : Prop :=
  g.root.Has t ∨ ∃ id, (g.resolve id).Has t

/-- No argument type in the grammar reads past the end of the input. -/
def Grammar.StaysInside {S C M : Type} (g : Grammar S C M) : Prop :=
  ∀ t, g.HasNode t → ∀ name type provider,
    t.traits.kind = .argument name type provider → type.StaysInside

/-- The next step begins one byte behind the step, and that byte is the separator. -/
def Step.Follows {S C M : Type} (input : Text) (st next : Step S C M) : Prop :=
  next.span.start = st.span.stop + 1 ∧
    Span.get? ⟨st.span.stop, next.span.start⟩ input = some [separator]

theorem Reader.separator_ahead {r : Reader} (h0 : 0 ≤ r.cursor) (hb : r.atBoundary = true)
    (h1 : r.canRead 1 = true) :
    Span.get? ⟨r.cursor, r.cursor + 1⟩ r.input = some [separator] := by
  have hl : r.cursor + 1 ≤ r.input.length := by simpa [canRead] using h1
  have hlt : r.cursor.toNat < r.input.length := by omega
  have hpeek : r.input[r.cursor.toNat] = separator := by
    have hn : ¬ r.cursor < 0 := by omega
    simpa [atBoundary, h1, peek, hn, hlt] using hb
  have hone : r.cursor + 1 - r.cursor = 1 := by omega
  have hin : 0 ≤ r.cursor ∧ r.cursor ≤ r.input.length := ⟨h0, by omega⟩
  simp only [Span.get?, Text.slice?, Span.length, hone, hin, and_self, if_true]
  rw [List.drop_eq_getElem_cons hlt, hpeek]
  rfl

theorem Step.Stands.stop_le {S C M : Type} {input : Text} {t : Tree S C M} {start stop : Int}
    {v : Option Value} (h : Step.Stands input ⟨t, ⟨start, stop⟩, v⟩) (h0 : 0 ≤ start)
    (hl : start ≤ input.length)
    (hin : ∀ name type provider, t.traits.kind = .argument name type provider →
      type.StaysInside) : stop ≤ input.length := by
  cases h with
  | word hk hcov =>
    have hlen := ((Tree.covers_iff h0).mp hcov).2.length_le
    rw [List.length_drop] at hlen
    omega
  | argument hk hread => exact hin _ _ _ hk ⟨input, start⟩ _ _ h0 hl hread

namespace Trail

variable {S C M : Type}

/-- Where the next node of a trail would begin: at its position while it has no steps, and else one
separator behind its last step. -/
def LeadsTo (input : Text) (tr : Trail S C M) (position : Int) : Prop :=
  match tr.last? with
  | none => position = tr.position
  | some st => position = st.span.stop + 1 ∧
      Span.get? ⟨st.span.stop, position⟩ input = some [separator]

/-- A trail that its input bears out. -/
structure Sound (input : Text) (tr : Trail S C M) : Prop where
  path : (tr.top :: tr.steps.map Step.node).IsChain fun parent child => child ∈ parent.children
  usable : ∀ (n : Nat) (st : Step S C M), tr.steps[n]? = some st →
    st.node.Usable (tr.upTo n).frame ⟨input, st.span.start⟩
  stands : ∀ st ∈ tr.steps, st.Stands input
  begins : ∀ st ∈ tr.steps.head?, st.span.start = tr.position
  spaced : tr.steps.IsChain (Step.Follows input)
  inside : ∀ st ∈ tr.steps, 0 ≤ st.span.start ∧ st.span.stop ≤ input.length
  position_nonneg : 0 ≤ tr.position
  position_le_stop : tr.position ≤ tr.stop

theorem Sound.start (input : Text) (source : S) (root : NodeId) (top : Tree S C M) {position : Int}
    (h0 : 0 ≤ position) : (start source root top position).Sound input where
  path := by simp [Trail.start]
  usable := by simp [Trail.start]
  stands := by simp [Trail.start]
  begins := by simp [Trail.start]
  spaced := by simp [Trail.start]
  inside := by simp [Trail.start]
  position_nonneg := h0
  position_le_stop := Int.le_refl position

theorem LeadsTo.stop_le {input : Text} {tr : Trail S C M} {position : Int}
    (h : tr.LeadsTo input position) : tr.stop ≤ position := by
  unfold LeadsTo at h
  unfold stop
  cases hl : tr.last? with
  | none => simp [hl] at h; simp [h]
  | some st => simp [hl] at h; simp; omega

theorem path_snoc {tr : Trail S C M} {st : Step S C M}
    (h : (tr.top :: tr.steps.map Step.node).IsChain fun parent child => child ∈ parent.children)
    (hc : st.node ∈ tr.tip.children) :
    (tr.top :: (tr.snoc st).steps.map Step.node).IsChain
      fun parent child => child ∈ parent.children := by
  have hlast : (tr.top :: tr.steps.map Step.node).getLast? = some tr.tip := by
    rw [List.getLast?_cons, tip, last?, List.getLast?_map]
  have hsteps : (tr.snoc st).steps.map Step.node = tr.steps.map Step.node ++ [st.node] := by
    simp [snoc]
  rw [hsteps, ← List.cons_append, List.isChain_append]
  refine ⟨h, by simp, ?_⟩
  intro x hx y hy
  obtain rfl : tr.tip = x := Option.some.inj (hlast.symm.trans hx)
  obtain rfl : st.node = y := by simpa using hy
  exact hc

theorem usable_snoc {input : Text} {tr : Trail S C M} {st : Step S C M}
    (h : ∀ (n : Nat) (st' : Step S C M), tr.steps[n]? = some st' →
      st'.node.Usable (tr.upTo n).frame ⟨input, st'.span.start⟩)
    (hu : st.node.Usable tr.frame ⟨input, st.span.start⟩) (n : Nat) (st' : Step S C M)
    (hn : (tr.snoc st).steps[n]? = some st') :
    st'.node.Usable ((tr.snoc st).upTo n).frame ⟨input, st'.span.start⟩ := by
  rcases Nat.lt_trichotomy n tr.steps.length with hlt | rfl | hgt
  · have hget : tr.steps[n]? = some st' := by
      rwa [snoc, List.getElem?_append_left hlt] at hn
    have hup : (tr.snoc st).upTo n = tr.upTo n := by
      simp [upTo, snoc, List.take_append_of_le_length (Nat.le_of_lt hlt)]
    rw [hup]
    exact h n st' hget
  · obtain rfl : st = st' := by simpa [snoc] using hn
    have hup : (tr.snoc st).upTo tr.steps.length = tr := by simp [upTo, snoc]
    rw [hup]
    exact hu
  · have hnone : (tr.steps ++ [st])[n]? = none := by simp; omega
    exact absurd (hnone.symm.trans hn) (by simp)

/-- A child of the last node that may be used and stands where the trail leads keeps it sound. -/
theorem Sound.snoc {input : Text} {tr : Trail S C M} {st : Step S C M} (h : tr.Sound input)
    (hc : st.node ∈ tr.tip.children) (hl : tr.LeadsTo input st.span.start)
    (hu : st.node.Usable tr.frame ⟨input, st.span.start⟩) (hst : st.Stands input)
    (hin : st.span.stop ≤ input.length) : (tr.snoc st).Sound input := by
  have h0 := h.position_nonneg
  have h1 := h.position_le_stop
  have h2 := hl.stop_le
  have h3 := hst.start_le_stop
  have hmem : ∀ st' ∈ (tr.snoc st).steps, st' ∈ tr.steps ∨ st' = st := by
    intro st' hm
    simpa [Trail.snoc] using hm
  refine ⟨path_snoc h.path hc, usable_snoc h.usable hu, ?_, ?_, ?_, ?_, h0, ?_⟩
  · intro st' hm
    rcases hmem st' hm with hm | rfl
    · exact h.stands st' hm
    · exact hst
  · intro st' hm
    cases hs : tr.steps with
    | nil =>
      obtain rfl : st = st' := by simpa [Trail.snoc, hs] using hm
      simpa [LeadsTo, last?, hs] using hl
    | cons a as => exact h.begins st' (by simpa [Trail.snoc, hs] using hm)
  · rw [Trail.snoc, List.isChain_append]
    refine ⟨h.spaced, by simp, ?_⟩
    intro x hx y hy
    obtain rfl : st = y := by simpa using hy
    unfold LeadsTo last? at hl
    rw [show tr.steps.getLast? = some x from hx] at hl
    exact hl
  · intro st' hm
    rcases hmem st' hm with hm | rfl
    · exact h.inside st' hm
    · exact ⟨by omega, hin⟩
  · rw [stop_snoc, position_snoc]
    omega

/-- Behind a matched node that more follows, the trail leads one byte further. -/
theorem leadsTo_snoc (tr : Trail S C M) (c : Tree S C M) (v : Option Value) {r : Reader} {n : Nat}
    (h0 : 0 ≤ r.cursor) (hb : (r.advance n).atBoundary = true)
    (hmore : (r.advance n).canRead 1 = true) :
    (tr.snoc ⟨c, ⟨r.cursor, r.cursor + n⟩, v⟩).LeadsTo r.input (r.advance (n + 1)).cursor := by
  have hs := Reader.separator_ahead (r := r.advance n) (by rw [Reader.advance_cursor]; omega) hb
    hmore
  have hcur : (r.advance (n + 1)).cursor = r.cursor + n + 1 := by
    rw [Reader.advance_cursor]; omega
  unfold LeadsTo
  rw [last?_snoc, hcur]
  exact ⟨rfl, hs⟩

/-- One step of a parse keeps its trail sound. -/
theorem Sound.matched {tr : Trail S C M} {c : Tree S C M} {r : Reader} {s' : Segment S C M}
    {n : Nat} (h : tr.Sound r.input) (hl : tr.LeadsTo r.input r.cursor) (hlen : r.cursor ≤ r.input.length)
    (hin : ∀ name type provider, c.traits.kind = .argument name type provider →
      type.StaysInside)
    (hc : c ∈ tr.tip.relevant r) (hu : c.Usable tr.frame r)
    (hm : c.attempt r tr.segment = .ok (s', n)) :
    ∃ v, s' = (tr.snoc ⟨c, ⟨r.cursor, r.cursor + n⟩, v⟩).segment ∧
      (tr.snoc ⟨c, ⟨r.cursor, r.cursor + n⟩, v⟩).Sound r.input ∧
      (r.advance n).atBoundary = true := by
  have h1 := h.position_le_stop
  have h2 := hl.stop_le
  have h0 : 0 ≤ r.cursor := by have := h.position_nonneg; omega
  obtain ⟨hchild, hroot⟩ := Tree.mem_relevant hc
  obtain ⟨v, hst, hb, rfl⟩ := (attempt_iff h0 h1 h2 hroot).mp hm
  exact ⟨v, rfl, h.snoc hchild hl hu hst (hst.stop_le h0 hlen hin), hb⟩

end Trail

/-- Trails one after another, each below the redirect that the one before it ends with. -/
inductive Linked {S C M : Type} (g : Grammar S C M) (input : Text) :
    Trail S C M → List (Trail S C M) → Prop
  | last {tr : Trail S C M} (sound : tr.Sound input) : Linked g input tr []
  | redirect {tr next : Trail S C M} {later : List (Trail S C M)} {st : Step S C M}
      (sound : tr.Sound input) (ends : tr.last? = some st)
      (leads : st.node.redirect = some next.root) (top : next.top = g.resolve next.root)
      (source : next.source = tr.source) (follows : tr.LeadsTo input next.position)
      (rest : Linked g input next later) : Linked g input tr (next :: later)

/-- Where a reader is left behind a trail: at its end, or where a next node would begin. -/
def Trail.Leaves {S C M : Type} (tr : Trail S C M) (r : Reader) : Prop :=
  r.cursor = tr.stop ∨ tr.LeadsTo r.input r.cursor

namespace Grammar

variable {S C M : Type}

theorem HasNode.child {g : Grammar S C M} {t c : Tree S C M} (h : g.HasNode t)
    (hc : c ∈ t.children) : g.HasNode c :=
  h.imp (fun h => h.child hc) fun ⟨id, h⟩ => ⟨id, h.child hc⟩

theorem canRead_of_le {r : Reader} {m n : Int} (hmn : m ≤ n) (h : r.canRead n = true) :
    r.canRead m = true := by
  simp only [Reader.canRead, decide_eq_true_eq] at h ⊢
  omega

theorem cursor_le_of_canRead {r : Reader} {n : Nat} (h : (r.advance n).canRead 1 = true) :
    (r.advance (n + 1)).cursor ≤ (r.advance (n + 1)).input.length := by
  have h := of_decide_eq_true h
  simp only [Reader.advance_cursor, Reader.advance_input] at h ⊢
  omega

/-- Wherever a parse comes to rest, its frames are those of linked trails that go on from where it
began. -/
theorem Reaches.linked {g : Grammar S C M} {t : Tree S C M} {r : Reader} {s : Segment S C M}
    {p : Parse S C M} (hg : g.StaysInside) (h : g.Reaches t r s p) (tr : Trail S C M)
    (hs : s = tr.segment) (ht : tr.tip = t) (hnode : g.HasNode t) (hsound : tr.Sound r.input)
    (hl : tr.LeadsTo r.input r.cursor) (hlen : r.cursor ≤ r.input.length) :
    ∃ more later, Linked g r.input (tr.append more) later ∧
      p.chain.all = (tr.append more :: later).map Trail.segment ∧ p.reader.input = r.input ∧
      ∀ last ∈ (tr.append more :: later).getLast?, last.Leaves p.reader := by
  induction h generalizing tr with
  | stop t r s errors =>
    subst hs
    refine ⟨[], [], by simpa using .last hsound, by simp [Chain.all], rfl, ?_⟩
    intro last hlast
    obtain rfl : tr = last := by simpa using hlast
    exact .inr hl
  | @rest t c r s s' n hc hu hm hspent =>
    subst hs ht
    obtain ⟨v, rfl, hsound', hb⟩ := hsound.matched hl hlen
      (hg c (hnode.child (Tree.mem_relevant hc).1)) hc hu hm
    refine ⟨[_], [], by simpa using .last hsound', by simp [Chain.all], rfl, ?_⟩
    intro last hlast
    obtain rfl := Option.some.inj hlast
    exact .inl (by simp)
  | @child t c r s s' n p hc hu hm hmore hdirect hbelow ih =>
    subst hs ht
    have hchild := hnode.child (Tree.mem_relevant hc).1
    obtain ⟨v, rfl, hsound', hb⟩ := hsound.matched hl hlen (hg c hchild) hc hu hm
    have h0 : 0 ≤ r.cursor := Int.le_trans hsound.position_nonneg
      (Int.le_trans hsound.position_le_stop hl.stop_le)
    have hone := canRead_of_le (m := 1) (n := 2) (by decide) hmore
    obtain ⟨more, later, hlink, hall, hin, hleaves⟩ := ih _ rfl (by simp) hchild hsound'
      (Trail.leadsTo_snoc tr c v h0 hb hone) (cursor_le_of_canRead hone)
    refine ⟨⟨c, ⟨r.cursor, r.cursor + n⟩, v⟩ :: more, later, ?_⟩
    rw [Trail.append_cons]
    exact ⟨hlink, hall, hin, hleaves⟩
  | @redirect t c r s s' n target p hc hu hm hmore hleads hbelow ih =>
    subst hs ht
    have hchild := hnode.child (Tree.mem_relevant hc).1
    obtain ⟨v, rfl, hsound', hb⟩ := hsound.matched hl hlen (hg c hchild) hc hu hm
    have h0 : 0 ≤ r.cursor := Int.le_trans hsound.position_nonneg
      (Int.le_trans hsound.position_le_stop hl.stop_le)
    have hl' := Trail.leadsTo_snoc tr c v h0 hb hmore
    -- The frame behind the redirect begins a trail of its own.
    obtain ⟨more, later, hlink, hall, hin, hleaves⟩ :=
      ih (.start tr.source target (g.resolve target) (r.advance (n + 1)).cursor) rfl rfl
        (.inr ⟨target, .top⟩) (.start _ _ _ _ (by rw [Reader.advance_cursor]; omega)) rfl
        (cursor_le_of_canRead hmore)
    refine ⟨[⟨c, ⟨r.cursor, r.cursor + n⟩, v⟩], (Trail.start tr.source target (g.resolve target)
      (r.advance (n + 1)).cursor).append more :: later, ?_, ?_, hin, ?_⟩
    · rw [Trail.append_cons, Trail.append_nil]
      exact .redirect hsound' (Trail.last?_snoc _ _) hleads rfl rfl hl' hlink
    · simpa [Chain.all, Parse.under] using hall
    · intro last hlast
      exact hleaves last (by simpa using hlast)

end Grammar

namespace Linked

variable {S C M : Type} {g : Grammar S C M} {input : Text} {tr : Trail S C M}
  {later : List (Trail S C M)}

theorem sound (h : Linked g input tr later) : ∀ tr' ∈ tr :: later, tr'.Sound input := by
  induction h with
  | last hsound => simpa using hsound
  | redirect hsound _ _ _ _ _ _ ih => exact List.forall_mem_cons.mpr ⟨hsound, ih⟩

theorem source_eq (h : Linked g input tr later) : ∀ tr' ∈ tr :: later, tr'.source = tr.source := by
  induction h with
  | last => simp
  | redirect _ _ _ _ hsource _ _ ih =>
    refine List.forall_mem_cons.mpr ⟨rfl, fun tr' hm => ?_⟩
    rw [ih tr' hm, hsource]

theorem redirects (h : Linked g input tr later) :
    (tr :: later).IsChain fun a b => ∃ st, a.last? = some st ∧
      st.node.redirect = some b.root ∧ b.top = g.resolve b.root ∧
      b.position = st.span.stop + 1 := by
  induction h with
  | last => simp
  | @redirect tr next later st _ hends hleads htop _ hfollows _ ih =>
    refine List.isChain_cons_cons.mpr ⟨⟨st, hends, hleads, htop, ?_⟩, ih⟩
    rw [Trail.LeadsTo, hends] at hfollows
    exact hfollows.1

/-- The first step of all begins where the first trail does. -/
theorem head_steps (h : Linked g input tr later) :
    ∀ st ∈ ((tr :: later).flatMap Trail.steps).head?, st.span.start = tr.position := by
  cases h with
  | last hsound => simpa using hsound.begins
  | @redirect _ next later st hsound hends =>
    intro st' hst'
    have hne : tr.steps ≠ [] := by
      intro hnil
      simp [Trail.last?, hnil] at hends
    rw [List.flatMap_cons, List.head?_append_of_ne_nil _ hne] at hst'
    exact hsound.begins st' hst'

/-- One separator stands between any two steps, also where a redirect lies between them. -/
theorem spaced (h : Linked g input tr later) :
    ((tr :: later).flatMap Trail.steps).IsChain (Step.Follows input) := by
  induction h with
  | last hsound => simpa using hsound.spaced
  | @redirect tr next later st hsound hends _ _ _ hfollows hrest ih =>
    rw [List.flatMap_cons, List.isChain_append]
    refine ⟨hsound.spaced, ih, ?_⟩
    intro x hx y hy
    obtain rfl : st = x := Option.some.inj (hends.symm.trans hx)
    rw [Trail.LeadsTo, hends, ← hrest.head_steps y hy] at hfollows
    exact hfollows

end Linked

/-- What a parse says about its input: trails, one for each frame, that the input bears out. -/
structure Derivation {S C M : Type} (g : Grammar S C M) (source : S) (r : Reader)
    (p : Parse S C M) (trails : List (Trail S C M)) : Prop where
  /-- Every frame, with the command, the modifier and the fork behind it, is that of its trail. -/
  frames : p.chain.all = trails.map Trail.segment
  sources : ∀ tr ∈ trails, tr.source = source
  /-- The first trail begins below the root of the grammar. -/
  outset : ∀ tr ∈ trails.head?, tr.root = g.root.id ∧ tr.top = g.root ∧ tr.position = r.cursor
  /-- Every other trail begins below the redirect of the node before it. -/
  redirects : trails.IsChain fun a b => ∃ st, a.last? = some st ∧
    st.node.redirect = some b.root ∧ b.top = g.resolve b.root ∧ b.position = st.span.stop + 1
  /-- The nodes of a trail go down from its top, from parent to child. -/
  paths : ∀ tr ∈ trails,
    (tr.top :: tr.steps.map Step.node).IsChain fun parent child => child ∈ parent.children
  /-- Every node admits the source, and the frame before it meets its condition where it stands. -/
  usable : ∀ tr ∈ trails, ∀ (n : Nat) (st : Step S C M), tr.steps[n]? = some st →
    st.node.Usable (tr.upTo n).frame ⟨r.input, st.span.start⟩
  stands : ∀ tr ∈ trails, ∀ st ∈ tr.steps, st.Stands r.input
  inside : ∀ tr ∈ trails, ∀ st ∈ tr.steps, 0 ≤ st.span.start ∧ st.span.stop ≤ r.input.length
  begins : ∀ st ∈ (trails.flatMap Trail.steps).head?, st.span.start = r.cursor
  spaced : (trails.flatMap Trail.steps).IsChain (Step.Follows r.input)
  /-- A frame binds the names of its arguments, each as the last argument of that name says. -/
  bindings : ∀ tr ∈ trails, ∀ (name : Text) (b : Binding), (name, b) ∈ tr.frame.bindings ↔
    ((tr.steps.filterMap Step.binding?).filter fun x => x.1 = name).getLast? = some (name, b)
  sorted : ∀ tr ∈ trails, tr.frame.bindings.Sorted
  /-- The reader is left at the end of the last trail, or where a next node would begin. -/
  leaves : p.reader.input = r.input ∧ ∀ tr ∈ trails.getLast?, tr.Leaves p.reader

namespace Grammar

variable {S C M : Type}

/-- Every parse of an input has a derivation. -/
theorem parse_derivation (g : Grammar S C M) (source : S) (r : Reader) (p : Parse S C M)
    (hg : g.StaysInside) (h0 : 0 ≤ r.cursor) (hl : r.cursor ≤ r.input.length)
    (h : g.parse source r = .ok p) : ∃ trails, Derivation g source r p trails := by
  obtain ⟨more, later, hlink, hall, hin, hleaves⟩ := (reaches_of_parseAt h).linked hg
    (.start source g.root.id g.root r.cursor) rfl rfl (.inl .top) (.start _ _ _ _ h0) rfl hl
  exact ⟨_, {
    frames := hall
    sources := hlink.source_eq
    outset := by simp [Trail.append, Trail.start]
    redirects := hlink.redirects
    paths := fun tr hm => (hlink.sound tr hm).path
    usable := fun tr hm => (hlink.sound tr hm).usable
    stands := fun tr hm => (hlink.sound tr hm).stands
    inside := fun tr hm => (hlink.sound tr hm).inside
    begins := hlink.head_steps
    spaced := hlink.spaced
    bindings := fun tr _ _ _ => Bindings.mem_bindAll_iff _
    sorted := fun tr _ => Bindings.sorted_bindAll _
    leaves := ⟨hin, hleaves⟩ }⟩

/-- A word to say. -/
def echoWord : Tree Unit Unit Unit :=
  .node [3] ⟨.argument (text "what") (BuiltIn.string .word).toArgumentType none, some (), none,
    none, none, none, false⟩ []

/-- Behind `say` stands the word, and `run` leads back to the root. -/
def echoRoot : Tree Unit Unit Unit :=
  .node [0] (.ofKind .root)
    [.node [1] ⟨.literal (text "run"), none, none, none, some [0], none, false⟩ [],
      .node [2] (.ofKind (.literal (text "say"))) [echoWord]]

def echo : Grammar Unit Unit Unit := ⟨echoRoot, fun id => if id = [0] then echoRoot else .bare id⟩

theorem echo_staysInside : echo.StaysInside := by
  have hroot : ∀ t, echoRoot.Has t → t = echoRoot ∨ t ∈ echoRoot.children ∨ t = echoWord := by
    intro t h
    induction h with
    | top => exact .inl rfl
    | child h hc ih =>
      rcases ih with rfl | ht | rfl
      · exact .inr (.inl hc)
      · simp only [echoRoot, Tree.children, List.mem_cons, List.not_mem_nil, or_false] at ht
        rcases ht with rfl | rfl
        · simp [Tree.children] at hc
        · exact .inr (.inr (by simpa [Tree.children] using hc))
      · simp [echoWord, Tree.children] at hc
  have hbare : ∀ id t, (Tree.bare id : Tree Unit Unit Unit).Has t → t = .bare id := by
    intro id t h
    induction h with
    | top => rfl
    | child h hc ih => subst ih; simp [Tree.bare, Tree.children] at hc
  intro t ht name type provider hk
  have hnode : t = .bare t.id ∨ t = echoRoot ∨ t ∈ echoRoot.children ∨ t = echoWord := by
    rcases ht with h | ⟨id, h⟩
    · exact .inr (hroot t h)
    · dsimp only [echo] at h
      split at h
      · exact .inr (hroot t h)
      · obtain rfl := hbare id t h
        exact .inl rfl
  rcases hnode with h | rfl | h | rfl
  · rw [h] at hk
    cases hk
  · cases hk
  · simp only [echoRoot, Tree.children, List.mem_cons, List.not_mem_nil, or_false] at h
    rcases h with rfl | rfl <;> cases hk
  · cases hk
    exact BuiltIn.staysInside _

/-- Also where redirects lead back to the root. -/
theorem parse_derivation_echo :
    ∃ p trails, echo.parse () (.ofText (text "run run say hi")) = .ok p ∧ p.isDone = true ∧
      p.chain.all.length = 3 ∧ Derivation echo () (.ofText (text "run run say hi")) p trails := by
  have h : (echo.parse () (.ofText (text "run run say hi"))).map
      (fun p => (p.isDone, p.chain.all.length)) = .ok (true, 3) := by
    cbv
  obtain ⟨p, hp, hdone⟩ := map_eq_ok_iff.mp h
  obtain ⟨hdone, hlength⟩ := Prod.mk.inj hdone
  obtain ⟨trails, htrails⟩ := parse_derivation echo () (.ofText (text "run run say hi")) p
    echo_staysInside (by decide) (by decide) hp
  exact ⟨p, trails, hp, hdone, hlength, htrails⟩

end Grammar

end CommandTree
