import CommandTree.Proofs.Calls
import CommandTree.Proofs.WordCompletion
import CommandTree.Usage

/-!
Usage lines of a tree of words without redirects. There a node is reached by one line only, the names
that lead to it with separators between them. Main statement: the restricted usage of the root lists,
in depth-first order and once each, the lines that are parsed to their end at a node with a command.
-/

namespace CommandTree

open scoped List

/-- Words with a separator between them. -/
def joined (words : List Text) : Text := [separator].intercalate words

theorem joined_cons (word : Text) {rest : List Text} (h : rest ≠ []) :
    joined (word :: rest) = word ++ separator :: joined rest := by
  obtain ⟨next, more, rfl⟩ := List.exists_cons_of_ne_nil h
  simp [joined, List.intercalate_cons_cons]

theorem joined_snoc (words : List Text) (word : Text) :
    joined (words ++ [word]) = Grammar.spell words ++ word := by
  induction words with
  | nil => simp [joined]
  | cons first rest ih =>
    rw [List.cons_append, joined_cons first (by simp), ih]
    simp

theorem spell_eq_joined {words : List Text} (h : words ≠ []) :
    Grammar.spell words = joined words ++ [separator] := by
  induction words with
  | nil => exact absurd rfl h
  | cons word rest ih =>
    by_cases hrest : rest = []
    · simp [hrest, joined]
    · rw [Grammar.spell_cons, ih hrest, joined_cons word hrest]
      simp

/-- A word that can be told from the others in a line. -/
def Text.IsToken (word : Text) : Prop := word ≠ [] ∧ separator ∉ word

theorem joined_eq_nil_iff {words : List Text} (h : ∀ w ∈ words, Text.IsToken w) :
    joined words = [] ↔ words = [] := by
  refine ⟨fun hnil => ?_, fun hnil => by rw [hnil]; rfl⟩
  cases words with
  | nil => rfl
  | cons word rest =>
    by_cases hrest : rest = []
    · subst hrest
      exact absurd (by simpa [joined] using hnil) (h word List.mem_cons_self).1
    · rw [joined_cons word hrest] at hnil
      simp at hnil

/-- A line determines its words. -/
theorem joined_injective {words words' : List Text} (h : ∀ w ∈ words, Text.IsToken w)
    (h' : ∀ w ∈ words', Text.IsToken w) (heq : joined words = joined words') : words = words' := by
  induction words generalizing words' with
  | nil => exact ((joined_eq_nil_iff h').mp heq.symm).symm
  | cons word rest ih =>
    have hsplit : ∀ (w : Text) (ws : List Text), ∃ tail, joined (w :: ws) = w ++ tail ∧
        Text.AtGap tail ∧ (ws = [] ∧ tail = [] ∨ ws ≠ [] ∧ tail = separator :: joined ws) := by
      intro w ws
      by_cases hws : ws = []
      · exact ⟨[], by simp [hws, joined], .inl rfl, .inl ⟨hws, rfl⟩⟩
      · exact ⟨_, joined_cons w hws, .inr ⟨_, rfl⟩, .inr ⟨hws, rfl⟩⟩
    cases words' with
    | nil => exact (joined_eq_nil_iff h).mp heq
    | cons word' rest' =>
      obtain ⟨htoken, hrest⟩ := List.forall_mem_cons.mp h
      obtain ⟨htoken', hrest'⟩ := List.forall_mem_cons.mp h'
      obtain ⟨tail, hline, hgap, htail⟩ := hsplit word rest
      obtain ⟨tail', hline', hgap', htail'⟩ := hsplit word' rest'
      rw [hline, hline'] at heq
      obtain rfl : word = word' := by
        rw [← Text.token_append htoken.2 hgap, heq, Text.token_append htoken'.2 hgap']
      obtain rfl := List.append_cancel_left heq
      rcases htail with ⟨rfl, rfl⟩ | ⟨-, rfl⟩ <;> rcases htail' with ⟨rfl, ht⟩ | ⟨-, ht⟩
      · rfl
      · cases ht
      · cases ht
      · rw [ih hrest hrest' (List.tail_eq_of_cons_eq ht)]

namespace Tree

variable {S C M : Type}

mutual
/-- The names that lead to each node of a tree, in depth-first order. -/
def paths : Tree S C M → List (List Text)
  | node _ _ cs => [] :: pathsAmong cs

def pathsAmong : List (Tree S C M) → List (List Text)
  | [] => []
  | c :: cs => (paths c).map (c.name :: ·) ++ pathsAmong cs
end

theorem pathsAmong_eq_flatMap (cs : List (Tree S C M)) :
    pathsAmong cs = cs.flatMap fun c => c.paths.map (c.name :: ·) := by
  induction cs with
  | nil => rfl
  | cons c cs ih => rw [pathsAmong, ih, List.flatMap_cons]

/-- Where siblings have different names, different nodes have different paths. -/
theorem NamesDistinct.nodup_paths {t : Tree S C M} (h : t.NamesDistinct) : t.paths.Nodup := by
  induction t with
  | node id traits cs ih =>
    obtain ⟨hnodup, hbelow⟩ := namesDistinct_iff.mp h
    rw [paths, pathsAmong_eq_flatMap, List.nodup_cons, List.nodup_flatMap]
    refine ⟨by simp, fun c hc => ?_, ?_⟩
    · exact (ih c hc (hbelow c hc)).map fun _ _ heq => List.tail_eq_of_cons_eq heq
    · refine (List.pairwise_map.mp hnodup).imp fun {c d} hne path hc hd => ?_
      obtain ⟨_, -, rfl⟩ := List.mem_map.mp hc
      obtain ⟨_, -, heq⟩ := List.mem_map.mp hd
      exact hne (List.head_eq_of_cons_eq heq).symm

theorem IsWord.token {c : Tree S C M} (h : c.IsWord) : Text.IsToken c.name :=
  ⟨h.name_ne_nil, h.spaceless⟩

/-- All names in a tree of words are tokens. -/
theorem token_of_mem_paths {t : Tree S C M} (h : ∀ u, t.Has u → ∀ c ∈ u.children, c.IsWord)
    {path : List Text} (hp : path ∈ t.paths) : ∀ w ∈ path, Text.IsToken w := by
  induction t generalizing path with
  | node id traits cs ih =>
    rw [paths, pathsAmong_eq_flatMap, List.mem_cons, List.mem_flatMap] at hp
    rcases hp with rfl | ⟨c, hc, hp⟩
    · exact fun w hw => absurd hw List.not_mem_nil
    · obtain ⟨rest, hrest, rfl⟩ := List.mem_map.mp hp
      have hbelow := ih c hc (fun u hu => h u ((Has.child .top hc).trans hu)) hrest
      exact List.forall_mem_cons.mpr ⟨(h _ .top c hc).token, hbelow⟩

end Tree

namespace Grammar

variable {S C M : Type} {g : Grammar S C M} {source : S}

/-- Words only, none of which redirects, below a root that is nothing but a root. -/
structure IsVocabulary (g : Grammar S C M) : Prop where
  words : ∀ t, g.root.Has t → ∀ c ∈ t.children, c.IsWord
  direct : ∀ t, g.root.Has t → t.redirect = none
  root : g.root.traits = .ofKind .root

theorem IsVocabulary.ofWords (h : g.IsVocabulary) : g.OfWords := fun t ht =>
  h.words t (ht.has_of_direct h.direct)

theorem IsVocabulary.beyond (h : g.IsVocabulary) {t : Tree S C M} (ht : g.root.Has t) :
    g.beyond t = t := beyond_direct (h.direct t ht)

/-- The words of a path lead the source to a node with a command. -/
def Runs (g : Grammar S C M) (source : S) (t : Tree S C M) (path : List Text) : Prop :=
  ∃ u, g.Leads source t path u ∧ u.command.isSome = true

/-- The line is parsed to its end, and the node matched last has a command. -/
def Executes (g : Grammar S C M) (source : S) (line : Text) : Prop :=
  ∃ p, g.parse source (.ofText line) = .ok p ∧ p.isDone = true ∧
    p.chain.last.command.isSome = true

/-! Usage lines are lines that run -/

theorem runs_nil {t : Tree S C M} : g.Runs source t [] ↔ t.command.isSome = true := by
  constructor
  · rintro ⟨u, hleads, hu⟩
    cases hleads
    exact hu
  · exact fun ht => ⟨t, .here t, ht⟩

theorem IsVocabulary.runs_cons (h : g.IsVocabulary) {t : Tree S C M} (ht : g.root.Has t)
    {word : Text} {rest : List Text} :
    g.Runs source t (word :: rest) ↔
      ∃ c ∈ t.children, c.name = word ∧ c.admits source = .ok true ∧ g.Runs source c rest := by
  constructor
  · rintro ⟨u, hleads, hu⟩
    cases hleads with
    | @word _ c _ _ mem admitted onwards =>
      rw [h.beyond (ht.child mem)] at onwards
      exact ⟨c, mem, rfl, admitted, u, onwards, hu⟩
  · rintro ⟨c, hc, rfl, hadmits, u, hleads, hu⟩
    exact ⟨u, .word hc hadmits (by rwa [h.beyond (ht.child hc)]), hu⟩

/-- The paths that run below a node are those that lead further than to the node itself. -/
theorem IsVocabulary.runs_below (h : g.IsVocabulary) {t : Tree S C M} (ht : g.root.Has t)
    {p : List Text} :
    p ≠ [] ∧ g.Runs source t p ↔
      ∃ c ∈ t.children, ∃ rest, p = c.name :: rest ∧ c.admits source = .ok true ∧
        g.Runs source c rest := by
  cases p with
  | nil => simp
  | cons word rest =>
    rw [h.runs_cons ht]
    constructor
    · rintro ⟨-, c, hc, rfl, hruns⟩
      exact ⟨c, hc, rest, rfl, hruns⟩
    · rintro ⟨c, hc, rest', heq, hruns⟩
      obtain ⟨rfl, rfl⟩ := List.cons.inj heq
      exact ⟨List.cons_ne_nil _ _, c, hc, rfl, hruns⟩

/-- The line to a child, as usage lines are put together. -/
theorem next_line {ws : List Text} (hws : ∀ w ∈ ws, Text.IsToken w) (name : Text) :
    (if (joined ws).isEmpty then name else beside (joined ws) name) = joined (ws ++ [name]) := by
  by_cases hnil : ws = []
  · subst hnil
    simp [joined]
  · have hne : joined ws ≠ [] := fun h => hnil ((joined_eq_nil_iff hws).mp h)
    rw [if_neg (by simpa using hne), beside, joined_snoc, spell_eq_joined hnil]
    simp

/-- What is listed below some nodes, where it is known what is listed for each of them. -/
theorem linesBelow_spec {ws : List Text} (hws : ∀ w ∈ ws, Text.IsToken w) {cs : List (Tree S C M)}
    (hcs : ∀ c ∈ cs, c.usage = c.name)
    (hlines : ∀ c ∈ cs, ∀ ls, g.lines source true (joined (ws ++ [c.name])) c = .ok ls →
      ∃ ps, ls = ps.map (fun p => joined (ws ++ c.name :: p)) ∧ ps <+ c.paths ∧
        ∀ p, p ∈ ps ↔ c.admits source = .ok true ∧ g.Runs source c p)
    {ls : List Text} (h : g.linesBelow source true (joined ws) cs = .ok ls) :
    ∃ ps, ls = ps.map (fun p => joined (ws ++ p)) ∧ ps <+ Tree.pathsAmong cs ∧
      ∀ p, p ∈ ps ↔ ∃ c ∈ cs, ∃ rest, p = c.name :: rest ∧ c.admits source = .ok true ∧
        g.Runs source c rest := by
  induction cs generalizing ls with
  | nil =>
    obtain rfl := Except.ok.inj h
    exact ⟨[], rfl, .slnil, by simp⟩
  | cons c cs ih =>
    obtain ⟨hc, hrest⟩ := List.forall_mem_cons.mp hcs
    obtain ⟨hfirst, hothers⟩ := List.forall_mem_cons.mp hlines
    rw [linesBelow, hc, next_line hws] at h
    split at h
    · cases h
    · rename_i own hown
      obtain ⟨below, hbelow, rfl⟩ := map_eq_ok_iff.mp h
      obtain ⟨ps, rfl, hsub, hmem⟩ := hfirst own hown
      obtain ⟨qs, rfl, hsub', hmem'⟩ := ih hrest hothers hbelow
      refine ⟨ps.map (c.name :: ·) ++ qs, by simp, (hsub.map _).append hsub', fun p => ?_⟩
      simp only [List.mem_append, List.mem_map, hmem', List.mem_cons, exists_eq_or_imp]
      refine or_congr ?_ Iff.rfl
      constructor
      · rintro ⟨rest, hp, rfl⟩
        exact ⟨rest, rfl, (hmem rest).mp hp⟩
      · rintro ⟨rest, rfl, hruns⟩
        exact ⟨rest, (hmem rest).mpr hruns, rfl⟩

/-- The usage lines below a node are the lines of those paths, in their order, that the source may go
and that end at a node with a command. -/
theorem IsVocabulary.lines_spec (h : g.IsVocabulary) {t : Tree S C M} (ht : g.root.Has t)
    {ws : List Text} (hws : ∀ w ∈ ws, Text.IsToken w) {ls : List Text}
    (hls : g.lines source true (joined ws) t = .ok ls) :
    ∃ ps, ls = ps.map (fun p => joined (ws ++ p)) ∧ ps <+ t.paths ∧
      ∀ p, p ∈ ps ↔ t.admits source = .ok true ∧ g.Runs source t p := by
  induction t generalizing ws ls with
  | node id traits cs ih =>
    rw [lines, if_pos rfl] at hls
    have hdirect := h.direct _ ht
    split at hls
    · cases hls
    · rename_i hrefused
      obtain rfl := Except.ok.inj hls
      exact ⟨[], rfl, List.nil_sublist _, by simp [hrefused]⟩
    · rename_i hadmits
      dsimp only at hls
      rw [hdirect] at hls
      obtain ⟨below, hbelow, rfl⟩ := map_eq_ok_iff.mp hls
      have hword := h.words _ ht
      have husage : ∀ c ∈ cs, c.usage = c.name := fun c hc => by
        rw [Tree.usage, Tree.tag, (hword c hc).kind]
        rfl
      have hnext : ∀ c ∈ cs, ∀ w ∈ ws ++ [c.name], Text.IsToken w := fun c hc w hw => by
        rcases List.mem_append.mp hw with hw | hw
        · exact hws w hw
        · exact List.mem_singleton.mp hw ▸ (hword c hc).token
      obtain ⟨ps, rfl, hsub, hmem⟩ := linesBelow_spec hws husage (fun c hc ls hls => by
        simpa using ih c hc (ht.child hc) (hnext c hc) hls) hbelow
      have hruns : ∀ p, p ∈ ps ↔ p ≠ [] ∧ g.Runs source (.node id traits cs) p := fun p =>
        (hmem p).trans (h.runs_below ht).symm
      have hhere : g.Runs source (.node id traits cs) [] ↔ traits.command.isSome = true := runs_nil
      rw [Tree.paths]
      by_cases hcommand : traits.command.isSome = true
      · refine ⟨[] :: ps, by simp [Tree.command, hcommand], hsub.cons_cons [], fun p => ?_⟩
        rw [List.mem_cons, hruns, hadmits]
        by_cases hp : p = []
        · subst hp
          simpa using hhere.mpr hcommand
        · simp [hp]
      · refine ⟨ps, by simp [Tree.command, hcommand], hsub.cons [], fun p => ?_⟩
        rw [hruns, hadmits]
        by_cases hp : p = []
        · subst hp
          simpa using fun hrun => hcommand (hhere.mp hrun)
        · simp [hp]

/-- A usage listing fails only where a requirement does. -/
theorem lines_error {restricted : Bool} {line : Text} {t : Tree S C M} {f : Fault}
    (h : g.lines source restricted line t = .error f) :
    ∃ u, t.Has u ∧ u.admits source = .error f := by
  induction t generalizing line with
  | node id traits cs ih =>
    have hbelow : ∀ ds ⊆ cs, g.linesBelow source restricted line ds = .error f →
        ∃ c ∈ cs, ∃ u, c.Has u ∧ u.admits source = .error f := by
      intro ds hds hfail
      induction ds with
      | nil => cases hfail
      | cons d ds ihds =>
        rw [linesBelow] at hfail
        split at hfail
        · rename_i f' hd
          obtain rfl := Except.error.inj hfail
          exact ⟨d, hds List.mem_cons_self, ih d (hds List.mem_cons_self) hd⟩
        · exact ihds (fun c hc => hds (List.mem_cons_of_mem d hc)) (map_eq_error_iff.mp hfail)
    rw [lines] at h
    split at h
    · rename_i f' hfails
      obtain rfl := Except.error.inj h
      cases restricted with
      | true => exact ⟨_, .top, hfails⟩
      | false => cases hfails
    · cases h
    · dsimp only at h
      split at h
      · cases h
      · obtain ⟨c, hc, u, hu, hfails⟩ := hbelow cs (List.Subset.refl cs) (map_eq_error_iff.mp h)
        exact ⟨u, (Tree.Has.child .top hc).trans hu, hfails⟩

/-! Lines that run are parsed to their end -/

theorem Leads.snoc_inv {t u : Tree S C M} {ws : List Text} {word : Text}
    (h : g.Leads source t (ws ++ [word]) u) :
    ∃ v, g.Leads source t ws v ∧ ∃ c ∈ v.children, c.name = word ∧ c.admits source = .ok true ∧
      g.beyond c = u := by
  induction ws generalizing t with
  | nil =>
    cases h with
    | @word _ c _ _ mem admitted onwards =>
      cases onwards
      exact ⟨t, .here t, c, mem, rfl, admitted, rfl⟩
  | cons first rest ih =>
    cases h with
    | word mem admitted onwards =>
      obtain ⟨v, hleads, hlast⟩ := ih onwards
      exact ⟨v, .word mem admitted hleads, hlast⟩

theorem Leads.tokens (hw : g.OfWords) {t u : Tree S C M} {ws : List Text} (ht : g.Reachable t)
    (h : g.Leads source t ws u) : ∀ w ∈ ws, Text.IsToken w := by
  induction h with
  | here => exact fun w hw => absurd hw List.not_mem_nil
  | @word t c u rest mem admitted onwards ih =>
    exact List.forall_mem_cons.mpr ⟨(hw t ht c mem).token, ih (ht.child mem).beyond⟩

/-- A walk that uses up the line has matched the words of the line, and has the command of the node
that they lead to. -/
theorem IsVocabulary.walk_spent (h : g.IsVocabulary) {t : Tree S C M} {r : Reader}
    {s : Segment S C M} {x : Except Fault (Parse S C M)} {p : Parse S C M} (hwalk : g.Walk t r s x)
    (ht : g.root.Has t) (h0 : 0 ≤ r.cursor) (hl : r.cursor ≤ r.input.length) (hp : x = .ok p)
    (hdone : p.isDone = true) :
    (r.rest = [] ∧ p.chain.last = s) ∨ ∃ ws u, ws ≠ [] ∧ g.Leads s.frame.source t ws u ∧
      r.rest = joined ws ∧ p.chain.last.command = u.command := by
  induction hwalk generalizing p with
  | refused => cases hp
  | @stuck t r s unknown =>
    obtain rfl := Except.ok.inj hp
    refine .inl ⟨?_, rfl⟩
    have hread : ¬ r.canRead 1 = true := by simpa [Parse.isDone] using hdone
    rw [Reader.canRead_iff h0 hl] at hread
    exact List.eq_nil_of_length_eq_zero (by omega)
  | @last t c r s mem admitted ahead =>
    obtain rfl := Except.ok.inj hp
    refine .inr ⟨[c.name], c, by simp, .word mem admitted ?_, by simpa [joined] using ahead, rfl⟩
    rw [h.beyond (ht.child mem)]
    exact .here c
  | @blank t c r s mem admitted ahead direct =>
    obtain rfl := Except.ok.inj hp
    have hlen := Reader.length_rest h0 hl
    rw [ahead, List.length_append] at hlen
    simp [Parse.isDone, Reader.canRead] at hdone hlen
    omega
  | @child t c r s more x mem admitted ahead more_ne_nil direct below ih =>
    obtain ⟨h0', hl'⟩ := Reader.inside_behind h0 hl ahead
    rcases ih (ht.child mem) h0' hl' hp hdone with ⟨hrest, -⟩ | ⟨ws, u, hws, hleads, hrest, hcommand⟩
    · rw [rest_behind h0 ahead] at hrest
      exact absurd hrest more_ne_nil
    · rw [rest_behind h0 ahead] at hrest
      refine .inr ⟨c.name :: ws, u, by simp, .word mem admitted ?_, ?_, hcommand⟩
      · rw [h.beyond (ht.child mem)]
        exact hleads
      · rw [ahead, hrest, joined_cons c.name hws]
  | redirect mem admitted ahead leads below ih =>
    have hdirect := (h.direct _ (ht.child mem)).symm.trans leads
    cases hdirect

/-- The lines that are parsed to their end at a node with a command are those of paths that run. -/
theorem IsVocabulary.executes_iff (h : g.IsVocabulary) (hn : g.NamesDistinct) {line : Text} :
    g.Executes source line ↔ ∃ ws, line = joined ws ∧ g.Runs source g.root ws := by
  have hw := h.ofWords
  have hwalk := parse_walk hw hn source line
  have hcommand : g.root.command = none := by rw [Tree.command, h.root]; rfl
  constructor
  · rintro ⟨p, hp, hdone, hsome⟩
    rcases h.walk_spent hwalk .top (Int.le_refl 0) (Int.natCast_nonneg _) hp hdone with
      ⟨-, hlast⟩ | ⟨ws, u, -, hleads, hline, hu⟩
    · rw [hlast] at hsome
      cases hsome
    · exact ⟨ws, hline, u, hleads, hu ▸ hsome⟩
  · rintro ⟨ws, rfl, u, hleads, hu⟩
    obtain rfl | ⟨before, word, rfl⟩ := ws.eq_nil_or_concat
    · cases hleads
      simp [hcommand] at hu
    · rw [List.concat_eq_append] at hleads hwalk ⊢
      obtain ⟨v, hv, c, hc, rfl, hadmits, hbeyond⟩ := hleads.snoc_inv
      obtain ⟨p, hp, hreader, -⟩ := hwalk.arrives hw hn rfl .root (Int.le_refl 0) hv hc hadmits
        (joined_snoc before c.name)
      have hdone : p.isDone = true := by
        simp [Parse.isDone, hreader, Reader.canRead, Reader.ofText, Reader.rest]
      refine ⟨p, hp, hdone, ?_⟩
      rcases h.walk_spent hwalk .top (Int.le_refl 0) (Int.natCast_nonneg _) hp hdone with
        ⟨hrest, -⟩ | ⟨ws, u', -, hleads', hline, hu'⟩
      · have hnil := (joined_eq_nil_iff (hleads.tokens hw .root)).mp hrest
        simp at hnil
      · have hsame := joined_injective (hleads.tokens hw .root) (hleads'.tokens hw .root) hline
        obtain ⟨-, -, rfl⟩ := hleads.unique hw hn .root hleads' (by rw [hsame])
          (.inl List.not_mem_nil)
          (.inl List.not_mem_nil)
        rwa [hu']

/-- In a tree of words without redirects, the usage that is listed for a source fails only where a
requirement does. It is made up of lines to the nodes of the tree, in depth-first order; no line stands
there twice, and those that do are just the lines that are parsed for the source to their end, at a node
with a command. -/
theorem allUsage_of_words (h : g.IsVocabulary) (hn : g.NamesDistinct) (source : S) :
    (∀ f, g.allUsage g.root source true = .error f →
      ∃ t, g.root.Has t ∧ t.admits source = .error f) ∧
    ∀ listed, g.allUsage g.root source true = .ok listed →
      listed <+ g.root.paths.map joined ∧ listed.Nodup ∧
        ∀ line, line ∈ listed ↔ g.Executes source line := by
  refine ⟨fun f hf => lines_error hf, fun listed hlisted => ?_⟩
  have hnone : ∀ w ∈ ([] : List Text), Text.IsToken w := by simp
  obtain ⟨ps, rfl, hsub, hmem⟩ := h.lines_spec .top hnone hlisted
  have hadmits : g.root.admits source = .ok true := by rw [Tree.admits, h.root]; rfl
  have htokens : ∀ path ∈ ps, ∀ w ∈ path, Text.IsToken w := fun path hp =>
    Tree.token_of_mem_paths h.words (hsub.subset hp)
  refine ⟨hsub.map joined, ?_, fun line => ?_⟩
  · refine (hn.1.nodup_paths.sublist hsub).map_on fun p hp q hq heq => ?_
    exact joined_injective (htokens p hp) (htokens q hq) heq
  · rw [h.executes_iff hn, List.mem_map]
    refine exists_congr fun path => ?_
    rw [hmem, hadmits, and_comm, eq_comm]
    simp

/-- Saving, and leaving, which only some sources may. -/
def diary : Grammar Bool Unit Unit :=
  Workbench.grammar <| Workbench.run ⟨true, .standard⟩
    [.start (text "all") (.literal (text "all")),
      .change (text "all") (.command ()),
      .start (text "save") (.literal (text "save")),
      .change (text "save") (.command ()),
      .change (text "save") (.built (text "all")),
      .register (text "save"),
      .start (text "page") (.literal (text "page")),
      .change (text "page") (.command ()),
      .start (text "close") (.literal (text "close")),
      .change (text "close") (.requirement .ok),
      .change (text "close") (.built (text "page")),
      .register (text "close")]

theorem diary_isVocabulary : diary.IsVocabulary where
  words := fun t ht => (by decide +kernel :
    ∀ t ∈ diary.root.subtrees, ∀ c ∈ t.children, c.IsWord) t (Tree.mem_subtrees_iff.mpr ht)
  direct := fun t ht => (by decide +kernel :
    ∀ t ∈ diary.root.subtrees, t.redirect = none) t (Tree.mem_subtrees_iff.mpr ht)
  root := rfl

/-- What a source may not use is not listed for it, and does not execute. -/
theorem allUsage_of_words_diary :
    diary.IsVocabulary ∧ diary.NamesDistinct ∧
      diary.allUsage diary.root false true = .ok [text "save", text "save all"] ∧
      diary.Executes false (text "save all") ∧ ¬ diary.Executes false (text "close page") ∧
      diary.Executes true (text "close page") := by
  have hn : diary.NamesDistinct := (Workbench.sound_run _ _).grammar.1
  have hfalse : diary.allUsage diary.root false true = .ok [text "save", text "save all"] := by
    decide +kernel
  have htrue : diary.allUsage diary.root true true =
      .ok [text "save", text "save all", text "close page"] := by
    decide +kernel
  obtain ⟨-, -, -, hmem⟩ := (allUsage_of_words diary_isVocabulary hn false).imp_right
    fun h => h _ hfalse
  obtain ⟨-, -, -, hmem'⟩ := (allUsage_of_words diary_isVocabulary hn true).imp_right
    fun h => h _ htrue
  refine ⟨diary_isVocabulary, hn, hfalse, (hmem _).mp (by decide), ?_, (hmem' _).mp (by decide)⟩
  exact fun hexec => absurd ((hmem _).mpr hexec) (by decide)

end Grammar

end CommandTree
