import CommandTree.Proofs.Gathering
import Mathlib

/-!
How gathering suggestions can fail. Bringing lists of suggestions together only fails over a suggestion
whose span does not lie in the input. Words, and arguments of built-in types without a provider, suggest
for the span of the draft and never fail to, so a failure comes from a node with suggestions of its own.
-/

namespace CommandTree

variable {S C M : Type}

theorem Text.length_first {t : Text} {n : Int} (h0 : 0 ≤ n) (h : n ≤ t.length) :
    ((t.first n).length : Int) = n := by
  rw [first, if_neg (by omega), List.length_take]
  omega

namespace Suggestions

theorem create_error {command : Text} {ss : List Suggestion} {f : Fault}
    (h : create command ss = .error f) : f = .outOfRange ∧ ∃ s ∈ ss, ¬ s.span.Inside command := by
  constructor
  · cases ss with
    | nil => cases h
    | cons s rest =>
      rw [create] at h
      cases hmap : (s :: rest).mapM (Suggestion.widen command (Suggestion.hull s rest)) with
      | error e =>
        obtain ⟨t, -, ht⟩ := mem_of_mapM_error hmap
        rw [hmap] at h
        obtain rfl : e = f := by simpa [bind, Except.bind] using h
        exact Suggestion.widen_error ht
      | ok widened => simp [hmap, bind, Except.bind] at h
  · by_contra hin
    push Not at hin
    rw [create_eq_settled hin] at h
    cases h

theorem merge_error {command : Text} {lists : List Suggestions} {f : Fault}
    (h : merge command lists = .error f) :
    f = .outOfRange ∧ ∃ all ∈ lists, ∃ s ∈ all.list, ¬ s.span.Inside command := by
  match lists, h with
  | [], h => cases h
  | [_], h => cases h
  | a :: b :: rest, h =>
    obtain ⟨hf, s, hs, hout⟩ := create_error h
    obtain ⟨all, hall, hs⟩ := List.mem_flatMap.mp hs
    exact ⟨hf, all, hall, s, hs, hout⟩

/-- From suggestions of one span a list of them is created, whatever the command. -/
theorem create_of_span (command : Text) {span : Span} {ss : List Suggestion}
    (h : ∀ s ∈ ss, s.span = span) :
    ∃ all, create command ss = .ok all ∧ ∀ s ∈ all.list, s.span = span := by
  cases ss with
  | nil => exact ⟨empty, rfl, fun s hs => absurd hs List.not_mem_nil⟩
  | cons t rest =>
    rw [create, Suggestion.hull_of_span h, Suggestion.mapM_widen_of_span h]
    exact ⟨_, rfl, fun s hs => h s (Suggestion.mem_of_mem_distinct (List.mem_mergeSort.mp hs))⟩

end Suggestions

/-- The draft is for a span, and so are the suggestions in it. -/
structure Draft.KeepsTo (d : Draft) (span : Span) : Prop where
  own : d.span = span
  entries : ∀ s ∈ d.entries, s.span = span

theorem Draft.KeepsTo.suggest {d : Draft} {span : Span} (h : d.KeepsTo span) (t : Text)
    (tooltip : Option Text) : (d.suggest t tooltip).KeepsTo span := by
  rw [Draft.suggest]
  split_ifs
  · exact h
  · refine ⟨h.own, fun s hs => ?_⟩
    rcases List.mem_append.mp hs with hs | hs
    · exact h.entries s hs
    · rw [List.mem_singleton.mp hs, Suggestion.ofText, h.own]

/-- Built-in types make suggestions without fail, for the span of the draft. -/
theorem BuiltIn.suggest_ok (type : BuiltIn) {d : Draft} (hd : d.entries = []) :
    ∃ all, type.suggest d = .ok all ∧ ∀ s ∈ all.list, s.span = d.span := by
  cases type with
  | bool =>
    have hoffer : ∀ (d' : Draft) (word : Text), d'.KeepsTo d.span →
        (if d'.remainingLower.isPrefixOf word then d'.suggest word none else d').KeepsTo d.span := by
      intro d' word h
      split_ifs
      · exact h.suggest word none
      · exact h
    have hstart : d.KeepsTo d.span := ⟨rfl, by simp [hd]⟩
    exact Suggestions.create_of_span _ (hoffer _ _ (hoffer _ _ hstart)).entries
  | number | string => exact ⟨.empty, rfl, fun s hs => absurd hs List.not_mem_nil⟩

/-- The node makes suggestions of its own: it is an argument with a provider, or of a type that is not
built in. -/
def Tree.HasOwnSuggestions (t : Tree S C M) : Prop :=
  ∃ name type provider, t.traits.kind = .argument name type provider ∧
    (provider = none → ∀ b : BuiltIn, type ≠ b.toArgumentType)

/-- The suggestions of a node spoil a completion: they fail, not with a syntax error, or one of them is
for a span that does not lie in the input. -/
def Tree.Spoils (t : Tree S C M) (context : Context S) (d : Draft) (input : Text) (f : Fault) : Prop :=
  t.suggest context d = .error f ∧ (∀ e, f ≠ .rejected e) ∨
    f = .outOfRange ∧ ∃ all, t.suggest context d = .ok all ∧ ∃ s ∈ all.list, ¬ s.span.Inside input

namespace Grammar

variable {context : Context S} {t : Tree S C M} {d : Draft} {f : Fault}

/-- A draft that was opened on the beginning of an input is for a span inside it. -/
theorem inside_of_ofInput {input : Text} {cursor start : Int} (h0 : 0 ≤ cursor)
    (hcursor : cursor ≤ input.length) (h : Draft.ofInput (input.first cursor) start = .ok d) :
    d.span.Inside input := by
  have hlength := Text.length_first h0 hcursor
  unfold Draft.ofInput Draft.openAt at h
  split_ifs at h with hin
  cases h
  exact ⟨by simp only [Draft.span]; omega, by simp only [Draft.span]; omega,
    by simp only [Draft.span]; omega⟩

theorem offer_error (h : offer context t d = .error f) :
    t.suggest context d = .error f ∧ ∀ e, f ≠ .rejected e := by
  unfold offer at h
  split at h
  · cases h
  · rename_i hrejected
    exact ⟨h, fun e he => hrejected e (he ▸ h)⟩

theorem suggest_of_offer {all : Suggestions} {s : Suggestion} (h : offer context t d = .ok all)
    (hs : s ∈ all.list) : t.suggest context d = .ok all := by
  unfold offer at h
  split at h
  · cases h
    cases hs
  · exact h

/-- A node without suggestions of its own suggests for the span of the draft. -/
theorem suggest_of_common (h : ¬ t.HasOwnSuggestions) (context : Context S) (hd : d.entries = []) :
    ∃ all, t.suggest context d = .ok all ∧ ∀ s ∈ all.list, s.span = d.span := by
  cases hargument : t.isArgument with
  | false => exact suggest_of_not_argument hargument context hd
  | true =>
    cases hk : t.traits.kind with
    | root | literal => simp [Tree.isArgument, hk, Kind.isArgument] at hargument
    | argument name type provider =>
      rw [Tree.HasOwnSuggestions] at h
      push Not at h
      obtain ⟨rfl, b, rfl⟩ := h name type provider hk
      rw [Tree.suggest, hk]
      exact b.suggest_ok hd

/-- Only a node with suggestions of its own spoils a completion, where the draft lies in the input. -/
theorem hasOwnSuggestions_of_spoils {input : Text} (hd : d.entries = []) (hin : d.span.Inside input)
    (h : t.Spoils context d input f) : t.HasOwnSuggestions := by
  by_contra hnot
  obtain ⟨all, hall, hspan⟩ := suggest_of_common hnot context hd
  rcases h with ⟨herror, -⟩ | ⟨-, all', hall', s, hs, hout⟩
  · rw [hall] at herror
    cases herror
  · obtain rfl := Except.ok.inj (hall.symm.trans hall')
    exact hout (hspan s hs ▸ hin)

/-- How putting the suggestions of several nodes together can fail. -/
theorem gather_error {cs : List (Tree S C M)} {input : Text}
    (h : (offers context (cs.map (·, d))).bind (Suggestions.merge input) = .error f) :
    ∃ t ∈ cs, t.Spoils context d input f := by
  rw [offers_eq_mapM] at h
  cases hlists : cs.mapM fun c => offer context c d with
  | error e =>
    rw [hlists] at h
    obtain rfl : e = f := by simpa [Except.bind] using h
    obtain ⟨t, ht, he⟩ := mem_of_mapM_error hlists
    exact ⟨t, ht, .inl (offer_error he)⟩
  | ok lists =>
    rw [hlists] at h
    obtain ⟨hf, all, hall, s, hs, hout⟩ := Suggestions.merge_error h
    obtain ⟨t, ht, hoffer⟩ := exists_partner (mapM_eq_ok_iff.mp hlists).flip hall
    exact ⟨t, ht, .inr ⟨hf, all, suggest_of_offer hoffer hs, s, hs, hout⟩⟩

end Grammar

end CommandTree
