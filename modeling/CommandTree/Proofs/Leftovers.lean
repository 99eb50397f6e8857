import CommandTree.Execution
import CommandTree.Proofs.Layout
import CommandTree.Proofs.Refusals
import Mathlib

/-!
Running a parse that left input over. Nothing is called, and what is reported is the error that got
furthest; without errors it is an unknown command or an unknown argument. The two are told apart by the
bytes that the first frame covers. Main statement: an unknown command is reported where no node was
matched, and also where the first frame matched a single node that covers no bytes.
-/

namespace CommandTree

/-- The first frame matched a single node, and that covers no bytes. -/
def Parse.OpensBlank {S C M : Type} (p : Parse S C M) : Prop :=
  ∃ m, p.chain.first.frame.matched = [m] ∧ m.span.isEmpty = true

theorem Parse.leftover_of_clean {S C M : Type} {p : Parse S C M} (h : p.errors = []) :
    p.leftover = p.reader.error
      (if p.chain.first.frame.span.isEmpty then .unknownCommand else .unknownArgument) := by
  rw [leftover, deepest?, h]
  rfl

namespace Grammar

variable {S C M : Type} {g : Grammar S C M} {source : S} {r : Reader} {p : Parse S C M}

/-- The first frame of a parse covers no bytes exactly when no node was matched at all, or when it has a
single match that covers none. -/
theorem isEmpty_first_iff (hp : g.parse source r = .ok p) :
    p.chain.first.frame.span.isEmpty = true ↔ p.matches = [] ∨ p.OpensBlank := by
  have hlaid := (laid_of_parse hp).1
  obtain ⟨next, hfirst⟩ := hlaid.first
  have hnone : p.matches = [] ↔ p.chain.first.frame.matched = [] := by
    constructor
    · intro h
      exact (List.append_eq_nil_iff.mp h).1
    · intro h
      by_contra hne
      exact hlaid.matched_first hne h
  rw [hfirst.isEmpty_iff, hnone, Parse.OpensBlank]

/-- Running a parse that left input over calls no command, no modifier and no consumer, and fails. If the
parse has errors, it fails with the first of those that got furthest. If it has none, it fails at the
place where the parse stopped: with an unknown command where no node was matched, or where the first
frame matched a single node that covers no bytes, and with an unknown argument otherwise. -/
theorem execute_leftover (hp : g.parse source r = .ok p) (hleft : p.reader.canRead 1 = true)
    (acts : Actions S C M) :
    ∃ e, p.execute acts = (.error (.rejected e), []) ∧
      (p.errors ≠ [] → ∃ before x after, p.errors = before ++ x :: after ∧ e = x.2 ∧
        (∀ y ∈ before, y.2.cursor < x.2.cursor) ∧ ∀ y ∈ after, y.2.cursor ≤ x.2.cursor) ∧
      (p.errors = [] →
        (p.matches = [] ∨ p.OpensBlank) ∧ e = p.reader.error .unknownCommand ∨
        p.matches ≠ [] ∧ ¬ p.OpensBlank ∧ e = p.reader.error .unknownArgument) := by
  refine ⟨p.leftover, by rw [Parse.execute, if_pos hleft], p.leftover_first, fun hclean => ?_⟩
  rw [Parse.leftover_of_clean hclean]
  have hiff := isEmpty_first_iff hp
  cases hempty : p.chain.first.frame.span.isEmpty with
  | true => exact .inl ⟨hiff.mp hempty, rfl⟩
  | false =>
    rw [hempty, Bool.false_eq_true, false_iff, not_or] at hiff
    exact .inr ⟨hiff.1, hiff.2, rfl⟩

/-- Behind `set` stands a truth value, or a label, or a title. -/
def banner : Grammar Unit Unit Unit :=
  let argument (i : Nat) (name : String) (type : BuiltIn) : Tree Unit Unit Unit :=
    .node [i] (.ofKind (.argument (text name) type.toArgumentType none)) []
  ⟨.node [0] (.ofKind .root) [.node [1] (.ofKind (.literal (text "set")))
    [argument 2 "flag" .bool, argument 3 "label" (.string .phrase),
      argument 4 "title" (.string .phrase)]], .bare⟩

def bannerActions : Actions Unit Unit Unit where
  run _ _ := .ok 0
  derive _ _ := .ok []

/-- The label and the title both read what is quoted and miss the separator; the label comes first. -/
theorem execute_leftover_banner :
    ∃ p before x after, banner.parse () (.ofText (text "set \"a\"x")) = .ok p ∧
      p.reader.canRead 1 = true ∧ p.execute bannerActions = (.error (.rejected x.2), []) ∧
      p.errors = before ++ x :: after ∧ (∀ y ∈ before, y.2.cursor < x.2.cursor) ∧
      (∀ y ∈ after, y.2.cursor ≤ x.2.cursor) ∧
      p.errors.map (fun y => (y.1, y.2.cause, y.2.cursor)) =
        [([2], .invalidBool (text "a"), 4), ([3], .expectedSeparator, 7),
          ([4], .expectedSeparator, 7)] := by
  have h : (banner.parse () (.ofText (text "set \"a\"x"))).map (fun p => (p.reader.canRead 1,
      p.errors.map fun y => (y.1, y.2.cause, y.2.cursor))) =
        .ok (true, [([2], .invalidBool (text "a"), 4), ([3], .expectedSeparator, 7),
          ([4], .expectedSeparator, 7)]) := by
    cbv
  obtain ⟨p, hp, hparts⟩ := map_eq_ok_iff.mp h
  obtain ⟨hleft, herrors⟩ := Prod.mk.inj hparts
  obtain ⟨e, hrun, hfirst, -⟩ := execute_leftover hp hleft bannerActions
  obtain ⟨before, x, after, hsplit, rfl, hbefore, hafter⟩ :=
    hfirst fun hnil => by simp [hnil] at herrors
  exact ⟨p, before, x, after, hp, hleft, hrun, hsplit, hbefore, hafter, herrors⟩

/-- A word to say, and nothing below it. -/
def murmur : Grammar Unit Unit Unit :=
  ⟨.node [0] (.ofKind .root)
    [.node [1] (.ofKind (.argument (text "what") (BuiltIn.string .word).toArgumentType none)) []],
    .bare⟩

/-- Before the separator the empty word is matched, and what is left over behind it is reported as an
unknown command. -/
theorem unknown_command_behind_match :
    ∃ p, murmur.parse () (.ofText (text " x")) = .ok p ∧ p.reader.canRead 1 = true ∧
      p.errors = [] ∧ p.matches = [⟨[1], .argument (text "what"), ⟨0, 0⟩⟩] ∧
      p.execute bannerActions =
        (.error (.rejected ⟨.unknownCommand, some (text " x", 1)⟩), []) := by
  have h : (murmur.parse () (.ofText (text " x"))).map (fun p => (p.reader.canRead 1, p.errors,
      p.matches, (p.execute bannerActions).1, (p.execute bannerActions).2.length)) =
        .ok (true, [], [⟨[1], .argument (text "what"), ⟨0, 0⟩⟩],
          .error (.rejected ⟨.unknownCommand, some (text " x", 1)⟩), 0) := by
    cbv
  obtain ⟨p, hp, hparts⟩ := map_eq_ok_iff.mp h
  simp only [Prod.mk.injEq] at hparts
  obtain ⟨hleft, hclean, hmatches, herror, hcalls⟩ := hparts
  exact ⟨p, hp, hleft, hclean, hmatches, Prod.ext herror (List.eq_nil_of_length_eq_zero hcalls)⟩

end Grammar

end CommandTree
