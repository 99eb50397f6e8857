import CommandTree.Proofs.Translation
import Mathlib

/-!
Where a line stands in a text. A parse may begin anywhere in its input; where argument types depend on
what lies ahead only, and no node asks what was matched before it, the text before that place is of no
account. Main statement: what is parsed behind a text is what is parsed without it, with the text put
before the input and every position moved by its length.
-/

namespace CommandTree

section

variable {S C M : Type}

/-- The parse as it comes out with a text before the input. -/
def Parse.behind (before : Text) (p : Parse S C M) : Parse S C M :=
  ⟨p.chain.shift before.length, p.reader.behind before,
    p.errors.map fun x => (x.1, x.2.behind before)⟩

/-- Where every error is that of the other parse with a text before its input, so is the parse. -/
theorem Parse.Moved.eq_behind {before : Text} {p p' : Parse S C M}
    (h : p.Moved (fun e e' => e' = e.behind before) before p') : p' = p.behind before := by
  have herrors : p'.errors = p.errors.map fun x => (x.1, x.2.behind before) := by
    have hmoved := h.errors
    generalize p.errors = es, p'.errors = es' at hmoved ⊢
    induction hmoved with
    | nil => rfl
    | cons related _ ih =>
      rw [List.map_cons, ih]
      exact congrArg (· :: _) (Prod.ext related.1.symm related.2)
  cases p'
  simp only [Parse.behind, Parse.mk.injEq]
  exact ⟨h.chain, h.reader, herrors⟩

theorem Agree.eq_map {α β : Type} {R : α → β → Prop} {f : α → β} {x : Except Fault α}
    {y : Except Fault β} (h : Agree R x y) (hf : ∀ a b, R a b → b = f a) : y = x.map f := by
  cases h with
  | error f => rfl
  | ok related => exact congrArg Except.ok (hf _ _ related)

/-- What becomes of a failure is moved with it. -/
theorem Reader.blame_behind (before : Text) (r : Reader) (n : Nat) (f : Fault) :
    (r.behind before).blame n (f.behind before) = (r.blame n f).behind before := by
  cases f with
  | rejected e => rfl
  | _ =>
    simp only [Fault.behind, blame, Reader.advance_behind]
    rfl

/-- A type that comes to the same behind any text fails there with the same error, moved. -/
theorem ArgumentType.Uniform.moves {type : ArgumentType} (h : type.Uniform) (before : Text) :
    type.Moves (fun e e' => e' = e.behind before) before := by
  intro r hr
  constructor
  · intro v n hread
    rw [h before r hr, hread]
    rfl
  · intro f n hread
    refine ⟨f.behind before, n, ?_, r.blame_behind before n f⟩
    rw [h before r hr, hread]
    rfl

namespace Grammar

/-- No node asks what was matched before it, and all arguments depend on what lies ahead only. -/
structure LooksAhead (g : Grammar S C M) : Prop where
  unconditional : ∀ t, g.Reachable t → t.traits.contextRequirement = none
  types : ∀ t, g.Reachable t → ∀ name type provider,
    t.traits.kind = .argument name type provider → type.Uniform

theorem LooksAhead.movable {g : Grammar S C M} (h : g.LooksAhead) (before : Text) :
    g.Movable (fun e e' => e' = e.behind before) before where
  own r cause := r.error_behind before cause
  types t ht name type provider hk := (h.types t ht name type provider hk).moves before
  conditions t ht q hq := absurd ((h.unconditional t ht).symm.trans hq) (by simp)

/-- All built-in types depend on what lies ahead only. Where all types do, and no node has a context
requirement, a line is parsed behind a text as it is without it: the same nodes, values, commands and
frames, with all positions moved by the length of the text, also that of the reader and those in the
errors; or the same fault of a requirement ends the parse. -/
theorem parse_behind : (∀ type : BuiltIn, type.toArgumentType.Uniform) ∧
    ∀ g : Grammar S C M, g.LooksAhead → ∀ (source : S) (before line : Text),
      g.parse source ⟨before ++ line, before.length⟩ =
        (g.parse source (.ofText line)).map (Parse.behind before) := by
  refine ⟨BuiltIn.uniform, fun g hg source before line => ?_⟩
  have hreader : (⟨before ++ line, before.length⟩ : Reader) =
      (Reader.ofText line).behind before := by
    simp only [Reader.behind, Reader.ofText, Int.zero_add]
  have hinside : (Reader.ofText line).Inside := ⟨Int.le_refl 0, Int.natCast_nonneg _⟩
  have hmoved := parseAt_behind (hg.movable before) .root hinside
    (.start source (some g.root.id) (Reader.ofText line).cursor)
  rw [Segment.shift_start] at hmoved
  rw [hreader]
  exact hmoved.eq_map fun _ _ => Parse.Moved.eq_behind

end Grammar

end

namespace Grammar

theorem echo_looksAhead : echo.LooksAhead := by
  have hnode : ∀ t, echo.Reachable t → t.traits.contextRequirement = none ∧
      ∀ name type provider, t.traits.kind = .argument name type provider → type.Uniform := by
    intro t ht
    rcases ht.hasNode.cases_of_root [0] fun _ => rfl with ht | ht
    · have hsubtrees : echo.root.subtrees = echo.root :: (echo.root.children ++ [echoWord]) := rfl
      rw [hsubtrees] at ht
      simp only [echo, echoRoot, Tree.children, List.cons_append, List.nil_append, List.mem_cons,
        List.not_mem_nil, or_false] at ht
      rcases ht with rfl | rfl | rfl | rfl
      · exact ⟨rfl, fun _ _ _ hk => by cases hk⟩
      · exact ⟨rfl, fun _ _ _ hk => by cases hk⟩
      · exact ⟨rfl, fun _ _ _ hk => by cases hk⟩
      · exact ⟨rfl, fun _ _ _ hk => by cases hk; exact BuiltIn.uniform _⟩
    · rw [ht]
      exact ⟨rfl, fun _ _ _ hk => by cases hk⟩
  exact ⟨fun t ht => (hnode t ht).1, fun t ht => (hnode t ht).2⟩

/-- A refused word behind a redirect is refused where it now stands. -/
theorem parse_behind_echo :
    ∃ p, echo.parse () (.ofText (text "run say ?")) = .ok p ∧ p.chain.all.length = 2 ∧
      p.errors = [([3], ⟨.expectedSeparator, some (text "run say ?", 8)⟩)] ∧
      ∃ p', echo.parse () ⟨text "sudo " ++ text "run say ?", (text "sudo ").length⟩ = .ok p' ∧
        p' = p.behind (text "sudo ") ∧
        p'.errors = [([3], ⟨.expectedSeparator, some (text "sudo run say ?", 13)⟩)] := by
  have h : (echo.parse () (.ofText (text "run say ?"))).map
      (fun p => (p.chain.all.length, p.errors)) =
        .ok (2, [([3], ⟨.expectedSeparator, some (text "run say ?", 8)⟩)]) := by
    cbv
  obtain ⟨p, hp, hparts⟩ := map_eq_ok_iff.mp h
  obtain ⟨hlength, herrors⟩ := Prod.mk.inj hparts
  have hbehind := parse_behind.2 echo echo_looksAhead () (text "sudo ") (text "run say ?")
  rw [hp] at hbehind
  refine ⟨p, hp, hlength, herrors, p.behind (text "sudo "), hbehind, rfl, ?_⟩
  simp only [Parse.behind, herrors]
  rfl

end Grammar

end CommandTree
