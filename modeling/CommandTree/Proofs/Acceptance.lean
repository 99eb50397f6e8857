import CommandTree.Proofs.Ambiguities
import CommandTree.Scripted.ArgumentTypes

/-!
Asking a node whether it accepts an input, beside trying it at the beginning of the input as a parse
does. A parse records whatever goes wrong as a syntax error; asking answers only a refusal, and any
other failure of an argument type comes through. Main statement: but for such failures the two agree,
and the search for ambiguities comes to its end exactly where no sibling fails so on an example.
-/

namespace CommandTree

namespace Tree

variable {S C M : Type} {t : Tree S C M} {input : Text} {f : Fault}

/-- The type of the argument fails on an input, and not by refusing it. -/
def FailsOn (t : Tree S C M) (input : Text) (f : Fault) : Prop :=
  ∃ name type provider n, t.traits.kind = .argument name type provider ∧
    type.parse (.ofText input) = (.error f, n) ∧ ∀ e, f ≠ .rejected e

/-- Asking fails exactly where the type does. -/
theorem accepts_error_iff : t.accepts input = .error f ↔ t.FailsOn input f := by
  unfold accepts
  constructor
  · intro h
    split at h
    · cases h
    · cases h
    · rename_i name type provider hk
      split at h
      · cases h
      · cases h
      · rename_i f' n hne hread
        obtain rfl := Except.error.inj h
        exact ⟨name, type, provider, n, hk, hread, fun e he => hne e he⟩
  · rintro ⟨name, type, provider, n, hk, hread, hne⟩
    rw [hk]
    dsimp only
    rw [hread]
    cases f with
    | rejected e => exact absurd rfl (hne e)
    | structural | invalidArgument | logic | runtime | outOfRange => rfl

/-- A parse records such a failure as an error where it arose. -/
theorem attempt_of_failsOn (h : t.FailsOn input f) (s : Segment S C M) :
    ∃ n, t.attempt (.ofText input) s =
      .error (((Reader.ofText input).advance n).error (.unreadable f.describe)) := by
  obtain ⟨name, type, provider, n, hk, hread, hne⟩ := h
  refine ⟨n, ?_⟩
  unfold attempt accept
  rw [hk]
  dsimp only
  rw [hread]
  cases f with
  | rejected e => exact absurd rfl (hne e)
  | structural | invalidArgument | logic | runtime | outOfRange => rfl

/-- A word is accepted where trying it succeeds. -/
theorem accepts_literal_iff {word : Text} (hk : t.traits.kind = .literal word)
    (s : Segment S C M) :
    t.accepts input = .ok true ↔ ∃ s' n, t.attempt (.ofText input) s = .ok (s', n) := by
  have hanswer : t.accepts input = .ok (wordAt word (.ofText input)) := by simp only [accepts, hk]
  rw [hanswer, Except.ok.injEq, wordAt_iff (Int.le_refl 0)]
  constructor
  · rintro ⟨hcovers, hgap⟩
    exact ⟨_, word.length, (attempt_word_iff (Int.le_refl 0) hk).mpr ⟨rfl, hcovers, hgap, rfl⟩⟩
  · rintro ⟨s', n, htried⟩
    obtain ⟨rfl, hcovers, hgap, -⟩ := (attempt_word_iff (Int.le_refl 0) hk).mp htried
    exact ⟨hcovers, hgap⟩

/-- An argument is accepted where trying it succeeds. -/
theorem accepts_argument_iff {name : Text} {type : ArgumentType} {provider : Option (Provider S)}
    (hk : t.traits.kind = .argument name type provider) (s : Segment S C M) :
    t.accepts input = .ok true ↔ ∃ s' n, t.attempt (.ofText input) s = .ok (s', n) := by
  have htried : (∃ s' n, t.attempt (.ofText input) s = .ok (s', n)) ↔
      ∃ v n, type.parse (.ofText input) = (.ok v, n) ∧
        ((Reader.ofText input).advance n).atBoundary = true := by
    simp only [attempt_argument_iff hk]
    constructor
    · rintro ⟨s', n, v, hread, hgap, -⟩
      exact ⟨v, n, hread, hgap⟩
    · rintro ⟨v, n, hread, hgap⟩
      exact ⟨_, n, v, hread, hgap, rfl⟩
  rw [htried]
  simp only [accepts, hk]
  rcases type.parse (.ofText input) with ⟨f | v, n⟩
  · cases f <;> simp
  · simp

theorem accepts_iff_attempt (ht : t.isRoot = false) (s : Segment S C M) :
    t.accepts input = .ok true ↔ ∃ s' n, t.attempt (.ofText input) s = .ok (s', n) := by
  cases hk : t.traits.kind with
  | root => simp [isRoot, hk, Kind.isRoot] at ht
  | literal word => exact accepts_literal_iff hk s
  | argument name type provider => exact accepts_argument_iff hk s

end Tree

namespace Ambiguity

variable {S C M : Type}

/-- The inputs that a node accepts are found where asking fails for none of them. -/
theorem acceptedBy_ok_iff {t : Tree S C M} {inputs : List Text} :
    (∃ found, acceptedBy t inputs = .ok found) ↔ ∀ input ∈ inputs, ∀ f, ¬ t.FailsOn input f := by
  constructor
  · intro h
    induction inputs with
    | nil => exact fun input hin => absurd hin List.not_mem_nil
    | cons input rest ih =>
      obtain ⟨found, hfound⟩ := h
      rw [acceptedBy] at hfound
      cases haccepted : t.accepts input with
      | error f => simp [haccepted] at hfound
      | ok accepted =>
        have hrest : ∃ found, acceptedBy t rest = .ok found := by
          cases hrest : acceptedBy t rest with
          | ok found => exact ⟨found, rfl⟩
          | error f => cases accepted <;> simp [haccepted, hrest, Except.map] at hfound
        refine List.forall_mem_cons.mpr ⟨fun f hf => ?_, ih hrest⟩
        simp [Tree.accepts_error_iff.mpr hf] at haccepted
  · intro h
    obtain ⟨found, hfound, -⟩ := acceptedBy_ok (t := t) fun input hin => by
      cases haccepted : t.accepts input with
      | ok accepted => exact ⟨accepted, rfl⟩
      | error f => exact absurd (Tree.accepts_error_iff.mp haccepted) (h input hin f)
    exact ⟨found, hfound⟩

theorem failsOn_of_acceptedBy {t : Tree S C M} {inputs : List Text} {f : Fault}
    (h : acceptedBy t inputs = .error f) : ∃ input ∈ inputs, t.FailsOn input f := by
  induction inputs with
  | nil => cases h
  | cons input rest ih =>
    have hlater : acceptedBy t rest = .error f →
        ∃ other ∈ input :: rest, t.FailsOn other f := fun hrest => by
      obtain ⟨other, hin, hf⟩ := ih hrest
      exact ⟨other, List.mem_cons_of_mem input hin, hf⟩
    rw [acceptedBy] at h
    rcases haccepted : t.accepts input with f' | ⟨_ | _⟩
    · simp only [haccepted] at h
      obtain rfl := Except.error.inj h
      exact ⟨input, List.mem_cons_self, Tree.accepts_error_iff.mp haccepted⟩
    · simp only [haccepted] at h
      exact hlater h
    · simp only [haccepted] at h
      exact hlater (map_eq_error_iff.mp h)

/-- What is found out about two nodes is a fault where asking for an example of the first fails. -/
theorem error_mem_between_iff {parent child sibling : Tree S C M} {f : Fault} :
    .error f ∈ between parent child sibling ↔ acceptedBy sibling child.examples = .error f := by
  unfold between
  rcases acceptedBy sibling child.examples with f' | _ | ⟨input, rest⟩
  · simp [eq_comm]
  · simp
  · simp

theorem untilFault_ok_iff {xs : List (Except Fault (Ambiguity S C M))} :
    (untilFault xs).2 = .ok () ↔ ∀ f, .error f ∉ xs := by
  induction xs with
  | nil => simp [untilFault]
  | cons x rest ih =>
    cases x with
    | error f => exact iff_of_false (by simp [untilFault]) fun h => h f List.mem_cons_self
    | ok a => simpa [untilFault] using ih

theorem mem_of_untilFault_error {xs : List (Except Fault (Ambiguity S C M))} {f : Fault}
    (h : (untilFault xs).2 = .error f) : .error f ∈ xs := by
  induction xs with
  | nil => cases h
  | cons x rest ih =>
    cases x with
    | error f' =>
      obtain rfl := Except.error.inj h
      exact List.mem_cons_self
    | ok a => exact List.mem_cons_of_mem _ (ih h)

/-- Two children of one node of the tree, at different places, in either order. -/
def Beside (t child sibling : Tree S C M) : Prop :=
  ∃ parent front rest, t.Has parent ∧ parent.children = front ++ child :: rest ∧
    sibling ∈ front ++ rest

theorem error_mem_search_iff {t : Tree S C M} {f : Fault} :
    .error f ∈ search t ↔
      ∃ child sibling, Beside t child sibling ∧ acceptedBy sibling child.examples = .error f := by
  rw [mem_search_iff]
  constructor
  · rintro ⟨parent, front, child, rest, hhas, hsplit, sibling, hs, hx⟩
    exact ⟨child, sibling, ⟨parent, front, rest, hhas, hsplit, hs⟩, error_mem_between_iff.mp hx⟩
  · rintro ⟨child, sibling, ⟨parent, front, rest, hhas, hsplit, hs⟩, hf⟩
    exact ⟨parent, front, child, rest, hhas, hsplit, sibling, hs, error_mem_between_iff.mpr hf⟩

/-- The search comes to its end where no node fails on an example of one beside it. -/
theorem ofTree_ok_iff {t : Tree S C M} :
    (ofTree t).2 = .ok () ↔ ∀ child sibling, Beside t child sibling →
      ∀ input ∈ child.examples, ∀ f, ¬ sibling.FailsOn input f := by
  rw [ofTree, untilFault_ok_iff]
  constructor
  · intro h child sibling hbeside
    refine acceptedBy_ok_iff.mp ?_
    cases hfound : acceptedBy sibling child.examples with
    | ok found => exact ⟨found, rfl⟩
    | error f => exact absurd (error_mem_search_iff.mpr ⟨child, sibling, hbeside, hfound⟩) (h f)
  · intro h f hf
    obtain ⟨child, sibling, hbeside, herror⟩ := error_mem_search_iff.mp hf
    obtain ⟨input, hin, hfails⟩ := failsOn_of_acceptedBy herror
    exact h child sibling hbeside input hin f hfails

/-- A node accepts an input where trying it at the beginning of the input succeeds, and asking fails
where its type fails otherwise than by refusing; a parse records that as an error like any other. The
search for ambiguities comes to its end exactly where no node fails so on an example of one beside it,
and else ends in such a failure. A refusal never ends it. -/
theorem accepted_as_attempted :
    (∀ t : Tree S C M, t.isRoot = false → ∀ (input : Text) (s : Segment S C M),
      (t.accepts input = .ok true ↔ ∃ s' n, t.attempt (.ofText input) s = .ok (s', n)) ∧
      (∀ f, t.accepts input = .error f ↔ t.FailsOn input f) ∧
      ∀ f, t.FailsOn input f → ∃ n, t.attempt (.ofText input) s =
        .error (((Reader.ofText input).advance n).error (.unreadable f.describe))) ∧
    ∀ t : Tree S C M,
      ((ofTree t).2 = .ok () ↔ ∀ child sibling, Beside t child sibling →
        ∀ input ∈ child.examples, ∀ f, ¬ sibling.FailsOn input f) ∧
      ∀ f, (ofTree t).2 = .error f → ∃ child sibling, Beside t child sibling ∧
        ∃ input ∈ child.examples, sibling.FailsOn input f := by
  refine ⟨fun t ht input s => ?_, fun t => ⟨ofTree_ok_iff, fun f hf => ?_⟩⟩
  · exact ⟨Tree.accepts_iff_attempt ht s, fun f => Tree.accepts_error_iff, fun f hf =>
      Tree.attempt_of_failsOn hf s⟩
  · obtain ⟨child, sibling, hbeside, herror⟩ :=
      error_mem_search_iff.mp (mem_of_untilFault_error hf)
    exact ⟨child, sibling, hbeside, failsOn_of_acceptedBy herror⟩

/-- An argument that takes one byte and then breaks down. -/
def trapdoor : Tree Unit Unit Unit :=
  .node [1] (.ofKind (.argument (text "what")
    (Scripted.take 1 [] (.runtimeFault (text "boom"))) none)) []

/-- The argument beside one that takes any word. -/
def cellar : Tree Unit Unit Unit :=
  .node [0] (.ofKind (.literal (text "open")))
    [trapdoor, .node [2] (.ofKind (.argument (text "other")
      (BuiltIn.string .word).toArgumentType none)) []]

/-- Asking whether the argument accepts a byte fails, a parse that tries it records an error, and the
search fails too. -/
theorem accepted_as_attempted_cellar :
    trapdoor.isRoot = false ∧ trapdoor.accepts (text "x") = .error (.runtime (text "boom")) ∧
      (∃ n, trapdoor.attempt (.ofText (text "x")) (.start () none 0) =
        .error (((Reader.ofText (text "x")).advance n).error (.unreadable (text "boom")))) ∧
      (ofTree cellar).2 ≠ .ok () := by
  obtain ⟨hnode, htree⟩ := accepted_as_attempted (S := Unit) (C := Unit) (M := Unit)
  obtain ⟨-, hfails, hrecords⟩ := hnode trapdoor rfl (text "x") (.start () none 0)
  have hbreaks : ∀ t : Text, 1 ≤ t.length →
      trapdoor.FailsOn t (.runtime (text "boom")) := fun t ht => by
    refine ⟨_, _, _, 1, rfl, ?_, by simp⟩
    have hlong : ¬ (Reader.ofText t).remainingLength < 1 := by
      simp only [Reader.remainingLength, Reader.ofText]
      omega
    exact if_neg hlong
  have hbeside : Beside cellar (cellar.children.get ⟨1, by decide⟩) trapdoor :=
    ⟨cellar, [trapdoor], [], .top, rfl, List.mem_cons_self⟩
  refine ⟨rfl, (hfails _).mpr (hbreaks _ (by decide)), hrecords _ (hbreaks _ (by decide)),
    fun hends => ?_⟩
  exact (htree cellar).1.mp hends _ _ hbeside (text "word") List.mem_cons_self _
    (hbreaks _ (by decide))

/-- Asking whether a node accepts an input can fail. -/
theorem accepts_can_fail :
    ¬ ∀ t : Tree Unit Unit Unit, t.isRoot = false → ∀ input, ∃ accepted,
      t.accepts input = .ok accepted := by
  intro h
  obtain ⟨accepted, haccepted⟩ := h trapdoor rfl (text "x")
  cases haccepted

end Ambiguity

end CommandTree
