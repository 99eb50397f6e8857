import CommandTree.Ambiguity
import CommandTree.Proofs.Siblings

/-!
Ambiguities between nodes whose arguments are of built-in types. Such a type never fails but by
refusing an input, and accepts each of its own examples, unless it is a number whose bounds leave the
example out. Main statement: the search for ambiguities comes to its end; the second node of each pair
accepts every input that is reported, and the first accepts all of them but those that its own bounds
leave out.
-/

namespace CommandTree

namespace Reader

/-- A number that is a whole text is read from it. -/
theorem readNumber_ofText {kind : NumberKind} {t : Text} {x : Number}
    (hall : t.all allowedInNumber = true) (hne : t ≠ []) (hx : kind.read? t = some x) :
    (ofText t).readNumber kind = (.ok x, t.length) := by
  have hrun : (ofText t).rest.takeWhile allowedInNumber = t :=
    List.takeWhile_eq_self_iff.mpr (List.all_eq_true.mp hall)
  rw [readNumber_run (Int.le_refl 0) (Int.natCast_nonneg _) hrun hne, hx]

theorem atBoundary_end (t : Text) : ((ofText t).advance t.length).atBoundary = true := by
  simp [atBoundary, canRead, ofText]

end Reader

namespace BuiltIn

open Reader

/-- The examples of numbers are numbers. -/
theorem number_of_example {kind : NumberKind} {lowest highest : Number} {input : Text}
    (h : input ∈ (number kind lowest highest).examples) :
    input.all allowedInNumber = true ∧ input ≠ [] ∧ ∃ x, kind.read? input = some x := by
  have hall : ∀ kind : NumberKind, ∀ input ∈ (number kind kind.lowest kind.highest).examples,
      input.all allowedInNumber = true ∧ input ≠ [] ∧ (kind.read? input).isSome = true := by
    intro kind
    cases kind <;> decide +kernel
  have hsame : (number kind lowest highest).examples =
      (number kind kind.lowest kind.highest).examples := by cases kind <;> rfl
  obtain ⟨hbytes, hne, hsome⟩ := hall kind input (hsame ▸ h)
  exact ⟨hbytes, hne, Option.isSome_iff_exists.mp hsome⟩

end BuiltIn

namespace Tree

variable {S C M : Type}

/-- All arguments in the tree are of built-in types. -/
def OfBuiltIns (t : Tree S C M) : Prop :=
  ∀ u, t.Has u → ∀ name type provider, u.traits.kind = .argument name type provider →
    ∃ b : BuiltIn, type = b.toArgumentType

/-- The node is a number argument, and its bounds leave out the number that a text denotes. -/
def LeavesOut (t : Tree S C M) (input : Text) : Prop :=
  ∃ name kind lowest highest provider x,
    t.traits.kind = .argument name (BuiltIn.number kind lowest highest).toArgumentType provider ∧
      kind.read? input = some x ∧ (x.lt lowest = true ∨ highest.lt x = true)

variable {t : Tree S C M} {name : Text} {provider : Option (Provider S)}

theorem OfBuiltIns.node {id : NodeId} {traits : Traits S C M} {cs : List (Tree S C M)}
    (hown : ∀ name type provider, traits.kind = .argument name type provider →
      ∃ b : BuiltIn, type = b.toArgumentType)
    (hcs : ∀ c ∈ cs, c.OfBuiltIns) : (node id traits cs).OfBuiltIns := by
  intro u hu
  rcases has_iff.mp hu with rfl | ⟨c, hc, hcu⟩
  · exact hown
  · exact hcs c hc u hcu

theorem ofBuiltIns_argument (id : NodeId) (name : Text) (type : BuiltIn) :
    (node id (.ofKind (.argument name type.toArgumentType none)) [] : Tree S C M).OfBuiltIns :=
  .node (fun _ _ _ hk => ⟨type, (Kind.argument.inj hk).2.1.symm⟩) (by simp)

theorem accepts_argument {type : BuiltIn}
    (hk : t.traits.kind = .argument name type.toArgumentType provider) (input : Text) :
    ∃ accepted, t.accepts input = .ok accepted := by
  simp only [accepts, hk]
  rcases hp : type.toArgumentType.parse (.ofText input) with ⟨f | v, n⟩
  · obtain ⟨cause, k, rfl, -, -⟩ := type.refusesAhead (.ofText input) f n (Int.le_refl 0)
      (Int.natCast_nonneg _) hp
    exact ⟨false, rfl⟩
  · exact ⟨_, rfl⟩

/-- A number is accepted as a whole, unless it is out of bounds. -/
theorem accepts_number {kind : NumberKind} {lowest highest x : Number} {input : Text}
    (hk : t.traits.kind = .argument name (BuiltIn.number kind lowest highest).toArgumentType provider)
    (hall : input.all Reader.allowedInNumber = true) (hne : input ≠ [])
    (hx : kind.read? input = some x) :
    t.accepts input = .ok (!(x.lt lowest || highest.lt x)) := by
  have hread := Reader.readNumber_ofText hall hne hx
  simp only [accepts, hk, BuiltIn.toArgumentType, BuiltIn.parse, BuiltIn.parseNumber, hread]
  cases hlow : x.lt lowest with
  | true => rfl
  | false =>
    cases hhigh : highest.lt x with
    | true => rfl
    | false => exact congrArg Except.ok (Reader.atBoundary_end input)

/-- An argument without bounds accepts its own examples. -/
theorem accepts_unbounded {type : BuiltIn} {input : Text}
    (hk : t.traits.kind = .argument name type.toArgumentType provider)
    (hbound : ∀ kind lowest highest, type ≠ .number kind lowest highest)
    (h : input ∈ type.examples) : t.accepts input = .ok true := by
  simp only [accepts, hk]
  revert input
  cases type with
  | number kind lowest highest => exact absurd rfl (hbound kind lowest highest)
  | bool => decide +kernel
  | string style => cases style <;> decide +kernel

theorem accepts_own_word {word : Text} (hk : t.traits.kind = .literal word) :
    t.accepts word = .ok true := by
  have hread : (Reader.ofText word).canRead word.length = true := by
    simp [Reader.canRead, Reader.ofText]
  have hrest : (Reader.ofText word).rest = word := List.drop_zero
  simp [accepts, hk, wordAt, hread, hrest, Reader.atBoundary_end]

theorem OfBuiltIns.accepts (h : t.OfBuiltIns) {u : Tree S C M} (hu : t.Has u) (input : Text) :
    ∃ accepted, u.accepts input = .ok accepted := by
  cases hk : u.traits.kind with
  | root => exact ⟨false, by simp only [Tree.accepts, hk]⟩
  | literal word => exact ⟨_, by simp only [Tree.accepts, hk]; rfl⟩
  | argument name type provider =>
    obtain ⟨b, rfl⟩ := h u hu name type provider hk
    exact accepts_argument hk input

/-- A node accepts each of its own examples that its bounds do not leave out, and no other. -/
theorem OfBuiltIns.accepts_example_iff (h : t.OfBuiltIns) {u : Tree S C M} (hu : t.Has u)
    {input : Text} (hin : input ∈ u.examples) :
    u.accepts input = .ok true ↔ ¬ u.LeavesOut input := by
  cases hk : u.traits.kind with
  | root => simp [examples, hk] at hin
  | literal word =>
    obtain rfl : input = word := by simpa [examples, hk] using hin
    refine iff_of_true (accepts_own_word hk) ?_
    rintro ⟨_, _, _, _, _, _, hk', -⟩
    simp [hk] at hk'
  | argument name type provider =>
    obtain ⟨b, rfl⟩ := h u hu name type provider hk
    have hin : input ∈ b.examples := by
      rw [examples, hk] at hin
      exact hin
    -- What is left out is refused, whichever bounds are given for the type.
    have hrefused : u.LeavesOut input → u.accepts input ≠ .ok true := by
      rintro ⟨name', kind, lowest, highest, provider', x, hk', hx, hout⟩
      have hexamples : b.examples = (BuiltIn.number kind lowest highest).examples := by
        rw [hk] at hk'
        exact congrArg ArgumentType.examples (Kind.argument.inj hk').2.1
      obtain ⟨hall, hne, -⟩ := BuiltIn.number_of_example (hexamples ▸ hin)
      rw [accepts_number hk' hall hne hx]
      rcases hout with hlow | hhigh
      · simp [hlow]
      · simp [hhigh]
    refine ⟨fun htrue hout => hrefused hout htrue, fun hin' => ?_⟩
    by_cases hnumber : ∃ kind lowest highest, b = .number kind lowest highest
    · obtain ⟨kind, lowest, highest, rfl⟩ := hnumber
      obtain ⟨hall, hne, x, hx⟩ := BuiltIn.number_of_example hin
      rw [accepts_number hk hall hne hx]
      have hlow : x.lt lowest = false := by
        by_contra hlow
        exact hin' ⟨_, kind, lowest, highest, _, x, hk, hx, .inl (by simpa using hlow)⟩
      have hhigh : highest.lt x = false := by
        by_contra hhigh
        exact hin' ⟨_, kind, lowest, highest, _, x, hk, hx, .inr (by simpa using hhigh)⟩
      rw [hlow, hhigh]
      rfl
    · exact accepts_unbounded hk (fun kind lowest highest hb =>
        hnumber ⟨kind, lowest, highest, hb⟩) hin

end Tree

namespace Ambiguity

variable {S C M : Type}

/-- Where a node accepts or refuses each input, the inputs that it accepts are found. -/
theorem acceptedBy_ok {t : Tree S C M} {inputs : List Text}
    (h : ∀ input ∈ inputs, ∃ accepted, t.accepts input = .ok accepted) :
    ∃ found, acceptedBy t inputs = .ok found ∧
      ∀ input, input ∈ found ↔ input ∈ inputs ∧ t.accepts input = .ok true := by
  induction inputs with
  | nil => exact ⟨[], rfl, by simp⟩
  | cons input rest ih =>
    obtain ⟨⟨accepted, haccepted⟩, hrest⟩ := List.forall_mem_cons.mp h
    obtain ⟨found, hfound, hmem⟩ := ih hrest
    rw [acceptedBy, haccepted]
    cases accepted with
    | true =>
      refine ⟨input :: found, by simp only [hfound]; rfl, fun other => ?_⟩
      rw [List.mem_cons, List.mem_cons, hmem]
      constructor
      · rintro (rfl | ⟨hin, hacc⟩)
        · exact ⟨.inl rfl, haccepted⟩
        · exact ⟨.inr hin, hacc⟩
      · rintro ⟨rfl | hin, hacc⟩
        · exact .inl rfl
        · exact .inr ⟨hin, hacc⟩
    | false =>
      refine ⟨found, hfound, fun other => ?_⟩
      rw [hmem, List.mem_cons]
      refine and_congr_left fun hacc => (or_iff_right ?_).symm
      rintro rfl
      simp [haccepted] at hacc

/-- From some child on, the search finds out what concerns a child and one of its siblings, and what
it finds out below a child. -/
theorem mem_searchAmong_iff {parent : Tree S C M} {before after : List (Tree S C M)}
    {x : Except Fault (Ambiguity S C M)} :
    x ∈ searchAmong parent before after ↔ ∃ front child rest, after = front ++ child :: rest ∧
      ((∃ sibling ∈ before ++ front ++ rest, x ∈ between parent child sibling) ∨
        x ∈ search child) := by
  induction after generalizing before with
  | nil => simp [searchAmong]
  | cons c cs ih =>
    rw [searchAmong, List.mem_append, List.mem_append, List.mem_flatMap, ih]
    constructor
    · rintro (hhere | ⟨front, child, rest, rfl, hlater⟩)
      · exact ⟨[], c, cs, rfl, by simpa using hhere⟩
      · exact ⟨c :: front, child, rest, rfl, by simpa using hlater⟩
    · rintro ⟨_ | ⟨d, front⟩, child, rest, hsplit, hfound⟩
      · obtain ⟨rfl, rfl⟩ := List.cons.inj hsplit
        exact .inl (by simpa using hfound)
      · obtain ⟨rfl, rfl⟩ := List.cons.inj hsplit
        exact .inr ⟨front, child, rest, rfl, by simpa using hfound⟩

/-- The search finds out what concerns two children of one node, at different places, and nothing
else. -/
theorem mem_search_iff {t : Tree S C M} {x : Except Fault (Ambiguity S C M)} :
    x ∈ search t ↔ ∃ parent front child rest, t.Has parent ∧
      parent.children = front ++ child :: rest ∧
      ∃ sibling ∈ front ++ rest, x ∈ between parent child sibling := by
  induction t with
  | node id traits cs ih =>
    rw [search, mem_searchAmong_iff]
    constructor
    · rintro ⟨front, child, rest, rfl, ⟨sibling, hs, hx⟩ | hbelow⟩
      · exact ⟨_, front, child, rest, .top, rfl, sibling, by simpa using hs, hx⟩
      · have hc : child ∈ front ++ child :: rest := by simp
        obtain ⟨parent, front', child', rest', hhas, hfound⟩ := (ih child hc).mp hbelow
        exact ⟨parent, front', child', rest', (Tree.Has.child .top hc).trans hhas, hfound⟩
    · rintro ⟨parent, front, child, rest, hhas, hsplit, sibling, hs, hx⟩
      rcases Tree.has_iff.mp hhas with rfl | ⟨c, hc, hbelow⟩
      · exact ⟨front, child, rest, hsplit, .inl ⟨sibling, by simpa using hs, hx⟩⟩
      · obtain ⟨before, after, hcs⟩ := List.append_of_mem hc
        exact ⟨before, c, after, hcs, .inr ((ih c hc).mpr
          ⟨parent, front, child, rest, hbelow, hsplit, sibling, hs, hx⟩)⟩

/-- The search finds out something only about two children of one node. -/
theorem between_of_mem_search {t : Tree S C M} {x : Except Fault (Ambiguity S C M)}
    (h : x ∈ search t) :
    ∃ parent child sibling, t.Has parent ∧ child ∈ parent.children ∧ sibling ∈ parent.children ∧
      x ∈ between parent child sibling := by
  obtain ⟨parent, front, child, rest, hhas, hsplit, sibling, hs, hx⟩ := mem_search_iff.mp h
  have hsibling : sibling ∈ parent.children := by
    rw [hsplit]
    exact List.mem_append.mpr ((List.mem_append.mp hs).imp_right (List.mem_cons_of_mem child))
  exact ⟨parent, child, sibling, hhas, by simp [hsplit], hsibling, hx⟩

theorem mem_of_mem_untilFault {xs : List (Except Fault (Ambiguity S C M))} {a : Ambiguity S C M}
    (h : a ∈ (untilFault xs).1) : .ok a ∈ xs := by
  induction xs with
  | nil => simp [untilFault] at h
  | cons x rest ih =>
    cases x with
    | error f => simp [untilFault] at h
    | ok b =>
      rw [untilFault, List.mem_cons] at h
      rcases h with rfl | h
      · exact List.mem_cons_self
      · exact List.mem_cons_of_mem _ (ih h)

theorem untilFault_of_no_fault {xs : List (Except Fault (Ambiguity S C M))}
    (h : ∀ x ∈ xs, ∃ a, x = .ok a) : (untilFault xs).2 = .ok () := by
  induction xs with
  | nil => rfl
  | cons x rest ih =>
    obtain ⟨⟨a, rfl⟩, hrest⟩ := List.forall_mem_cons.mp h
    exact ih hrest

/-- What is found out about two nodes of a tree is an ambiguity: examples of the first node that the
second accepts. -/
theorem found_of_between {t parent child sibling : Tree S C M} (ht : t.OfBuiltIns)
    (hs : t.Has sibling) {x : Except Fault (Ambiguity S C M)} (h : x ∈ between parent child sibling) :
    ∃ a, x = .ok a ∧ a.child = child ∧ a.sibling = sibling ∧
      ∀ input ∈ a.inputs, input ∈ child.examples ∧ sibling.accepts input = .ok true := by
  obtain ⟨found, hfound, hmem⟩ := acceptedBy_ok fun input (_ : input ∈ child.examples) =>
    ht.accepts hs input
  rw [between, hfound] at h
  cases found with
  | nil => simp at h
  | cons input rest =>
    obtain rfl := List.mem_singleton.mp h
    exact ⟨_, rfl, rfl, rfl, fun other hin => (hmem other).mp (Text.mem_sortedSet.mp hin)⟩

/-- Where all arguments are of built-in types, the search for ambiguities comes to its end. The second
node of each pair accepts all inputs reported, and the first accepts those that its own bounds do not
leave out; the others it refuses. -/
theorem found_accepted {t : Tree S C M} (h : t.OfBuiltIns) :
    (ofTree t).2 = .ok () ∧ ∀ a ∈ (ofTree t).1, ∀ input ∈ a.inputs,
      a.sibling.accepts input = .ok true ∧
        (a.child.accepts input = .ok true ↔ ¬ a.child.LeavesOut input) ∧
        (a.child.accepts input = .ok false ↔ a.child.LeavesOut input) := by
  have hfound : ∀ x ∈ search t, ∃ a, x = .ok a ∧ t.Has a.child ∧
      ∀ input ∈ a.inputs, input ∈ a.child.examples ∧ a.sibling.accepts input = .ok true := by
    intro x hx
    obtain ⟨parent, child, sibling, hp, hc, hs, hx⟩ := between_of_mem_search hx
    obtain ⟨a, rfl, rfl, rfl, hinputs⟩ := found_of_between h (hp.child hs) hx
    exact ⟨a, rfl, hp.child hc, hinputs⟩
  refine ⟨untilFault_of_no_fault fun x hx => ?_, fun a ha input hin => ?_⟩
  · obtain ⟨a, rfl, -⟩ := hfound x hx
    exact ⟨a, rfl⟩
  · obtain ⟨b, hb, hchild, hinputs⟩ := hfound _ (mem_of_mem_untilFault ha)
    obtain rfl := Except.ok.inj hb
    obtain ⟨hexample, hsibling⟩ := hinputs input hin
    have hiff := h.accepts_example_iff hchild hexample
    refine ⟨hsibling, hiff, ?_⟩
    obtain ⟨accepted, haccepted⟩ := h.accepts hchild input
    rw [haccepted] at hiff ⊢
    cases accepted with
    | true => exact iff_of_false nofun (hiff.mp rfl)
    | false => exact iff_of_true rfl (not_not.mp fun hout => nomatch hiff.mpr hout)

/-- The two arguments of a dial: a whole number inside bounds, and a further argument. -/
def dial (lowest highest : Int) (other : BuiltIn) : Tree Unit Unit Unit :=
  .node [0] (.ofKind (.literal (text "dial")))
    [.node [1] (.ofKind (.argument (text "level")
        (BuiltIn.number .integer (.integer lowest) (.integer highest)).toArgumentType none)) [],
      .node [2] (.ofKind (.argument (text "other") other.toArgumentType none)) []]

theorem dial_ofBuiltIns (lowest highest : Int) (other : BuiltIn) :
    (dial lowest highest other).OfBuiltIns := by
  refine .node (fun _ _ _ hk => by cases hk) fun c hc => ?_
  rcases List.mem_pair.mp hc with rfl | rfl
  · exact Tree.ofBuiltIns_argument _ _ (.number .integer (.integer lowest) (.integer highest))
  · exact Tree.ofBuiltIns_argument _ _ other

/-- A dial from 100 on, beside numbers up to 200. -/
def highDial : Tree Unit Unit Unit := dial 100 1000 (.number .integer (.integer 0) (.integer 200))

/-- Of the examples that the dial shares with the numbers beside it, it leaves out one and accepts the
other. -/
theorem found_accepted_dial :
    highDial.OfBuiltIns ∧ ∃ a ∈ (ofTree highDial).1, a.inputs = [text "0", text "123"] ∧
      a.sibling.accepts (text "0") = .ok true ∧ a.child.accepts (text "0") = .ok false ∧
      a.sibling.accepts (text "123") = .ok true ∧ ¬ a.child.LeavesOut (text "123") := by
  have hdial : highDial.OfBuiltIns := dial_ofBuiltIns 100 1000 _
  obtain ⟨a, ha, hinputs, hkind⟩ : ∃ a ∈ (ofTree highDial).1, a.inputs = [text "0", text "123"] ∧
      a.child.traits.kind = .argument (text "level")
        (BuiltIn.number .integer (.integer 100) (.integer 1000)).toArgumentType none := by
    refine ⟨_, List.mem_cons_self, ?_, rfl⟩
    decide +kernel
  obtain ⟨-, hall⟩ := found_accepted hdial
  obtain ⟨hzero, -, hout⟩ := hall a ha (text "0") (by simp [hinputs])
  obtain ⟨hmore, hinside, -⟩ := hall a ha (text "123") (by simp [hinputs])
  refine ⟨hdial, a, ha, hinputs, hzero, hout.mpr ?_, hmore, hinside.mp ?_⟩
  · exact ⟨_, .integer, _, _, _, .integer 0, hkind, by decide +kernel, .inl (by decide +kernel)⟩
  · simp only [Tree.accepts, hkind]
    decide +kernel

/-- The search reports an input that one of the two nodes refuses. -/
theorem reports_refused_example :
    ¬ ∀ t : Tree Unit Unit Unit, t.OfBuiltIns → ∀ a ∈ (ofTree t).1, ∀ input ∈ a.inputs,
      a.child.accepts input = .ok true ∧ a.sibling.accepts input = .ok true := by
  intro h
  have hfound : ((ofTree (dial 1 10 (.string .word))).1.any fun a =>
      a.inputs.any fun input => decide (a.child.accepts input = .ok false)) = true := by
    decide +kernel
  obtain ⟨a, ha, hinputs⟩ := List.any_eq_true.mp hfound
  obtain ⟨input, hin, hrefused⟩ := List.any_eq_true.mp hinputs
  have haccepted := (h _ (dial_ofBuiltIns 1 10 (.string .word)) a ha input hin).1
  rw [of_decide_eq_true hrefused] at haccepted
  cases haccepted

end Ambiguity

end CommandTree
