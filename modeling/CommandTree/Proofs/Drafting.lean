import CommandTree.Proofs.Effects
import Mathlib

/-!
What calls put into a draft. Each suggests for the rest of the input from the position of the draft that
it is made on. A text that is just what has been typed there is turned down; a number never is. Main
statement: a list that was built from any calls has a suggestion that gives the input back exactly if a
number was suggested that reads as what had been typed.
-/

namespace CommandTree

variable {input : Text}

/-- A suggestion that a draft on an input takes: for the rest of the input from some position, and a text
is not what stands there already. -/
inductive Suggestion.Offered (input : Text) : Suggestion → Prop
  | text {i : Nat} (inside : i ≤ input.length) {t : Text} (fresh : t ≠ input.drop i)
      (tooltip : Option Text) : Offered input (.ofText ⟨i, input.length⟩ t tooltip)
  | number {i : Nat} (inside : i ≤ input.length) (n : Int) (tooltip : Option Text) :
      Offered input (.ofInteger ⟨i, input.length⟩ n tooltip)

namespace Suggestion

variable {s : Suggestion}

/-- The number that a suggestion was made from, with the position that it is for. -/
def numbered (s : Suggestion) : Option (Nat × Int) := s.number.map (s.span.start.toNat, ·)

theorem Offered.inside (h : s.Offered input) : s.span.Inside input := by
  cases h with
  | text inside | number inside =>
    exact ⟨Int.natCast_nonneg _, Int.ofNat_le.mpr inside, Int.le_refl _⟩

/-- For the rest of the input, what stands there already is the one text that changes nothing. -/
theorem apply_rest_eq_iff {i : Nat} (h : i ≤ input.length) (hspan : s.span = ⟨i, input.length⟩) :
    s.apply input = .ok input ↔ s.text = input.drop i := by
  have hinside : s.span.Inside input :=
    hspan ▸ ⟨Int.natCast_nonneg _, Int.ofNat_le.mpr h, Int.le_refl _⟩
  have hbefore : input.between 0 i = input.take i := by
    rw [Text.between, Int.toNat_natCast, Int.toNat_zero, List.drop_zero]
  have hwhole : (s.widened input (.whole input)).text = input.take i ++ s.text := by
    simp only [widened, Span.whole, hspan, Text.between_self, List.append_nil, hbefore]
  have hsplit := List.take_append_drop i input
  rw [apply_eq_widened hinside, Except.ok.injEq, hwhole]
  constructor
  · intro h
    exact List.append_cancel_left (h.trans hsplit.symm)
  · rintro htext
    rw [htext, hsplit]

/-- Only a number gives the input back. -/
theorem Offered.apply_eq_iff (h : s.Offered input) :
    s.apply input = .ok input ↔ ∃ x, s.numbered = some x ∧ Decimal.integer x.2 = input.drop x.1 := by
  cases h with
  | @text i inside t fresh tooltip =>
    rw [apply_rest_eq_iff inside rfl]
    simpa [numbered, ofText] using fresh
  | @number i inside n tooltip =>
    rw [apply_rest_eq_iff inside rfl]
    simp [numbered, ofInteger]

end Suggestion

namespace Draft

/-- One call on a draft. What is added is another draft on the same input, begun at a position of its own
or at that of the first, with the calls that were made on it. -/
inductive Edit
  | text (t : Text) (tooltip : Option Text)
  | number (n : Int) (tooltip : Option Text)
  | offset (start : Int) (edits : List Edit)
  | restart (edits : List Edit)

mutual
def edit (d : Draft) : Edit → Except Fault Draft
  | .text t tooltip => .ok (d.suggest t tooltip)
  | .number n tooltip => .ok (d.suggestInteger n tooltip)
  | .offset start edits =>
    match d.offset start with
    | .error f => .error f
    | .ok e => (e.editAll edits).map d.add
  | .restart edits => (d.restart.editAll edits).map d.add

/-- Calls one after another, up to the first that fails. -/
def editAll (d : Draft) : List Edit → Except Fault Draft
  | [] => .ok d
  | e :: rest =>
    match d.edit e with
    | .error f => .error f
    | .ok d => d.editAll rest
end

mutual
/-- The numbers that a call on a draft suggests, each with the position of the draft that takes it. -/
def Edit.numbers (start : Nat) : Edit → List (Nat × Int)
  | .text _ _ => []
  | .number n _ => [(start, n)]
  | .offset start edits => numbersAll start.toNat edits
  | .restart edits => numbersAll start edits

def Edit.numbersAll (start : Nat) : List Edit → List (Nat × Int)
  | [] => []
  | e :: rest => e.numbers start ++ numbersAll start rest
end

variable {d d' d'' e e' : Draft} {ns ms : List (Nat × Int)}

/-- Suggestions were added to a draft, on its own input, with these numbers among them. -/
structure Gains (d d' : Draft) (ns : List (Nat × Int)) : Prop where
  input : d'.input = d.input
  start : d'.start = d.start
  entries : ∃ new, d'.entries = d.entries ++ new ∧ (∀ s ∈ new, s.Offered d.input) ∧
    new.filterMap Suggestion.numbered = ns

theorem Gains.refl (d : Draft) : d.Gains d [] :=
  ⟨rfl, rfl, [], (List.append_nil _).symm, by simp, rfl⟩

theorem Gains.trans (h : d.Gains d' ns) (h' : d'.Gains d'' ms) : d.Gains d'' (ns ++ ms) := by
  obtain ⟨new, hnew, hoffered, hns⟩ := h.entries
  obtain ⟨more, hmore, hoffered', hms⟩ := h'.entries
  refine ⟨h'.input.trans h.input, h'.start.trans h.start, new ++ more, ?_, ?_, ?_⟩
  · rw [hmore, hnew, List.append_assoc]
  · exact List.forall_mem_append.mpr ⟨hoffered, h.input ▸ hoffered'⟩
  · rw [List.filterMap_append, hns, hms]

/-- What another draft on the same input gained is added. -/
theorem Gains.add (hinput : e.input = d.input) (hblank : e.entries = []) (h : e.Gains e' ns) :
    d.Gains (d.add e') ns := by
  obtain ⟨new, hnew, hoffered, hns⟩ := h.entries
  rw [hblank, List.nil_append] at hnew
  exact ⟨rfl, rfl, new, congrArg (d.entries ++ ·) hnew, hinput ▸ hoffered, hns⟩

/-- A draft begins in its input. -/
def Placed (d : Draft) : Prop := d.start ≤ d.input.length

/-- Nothing was put into a draft yet. -/
structure Unfilled (d : Draft) : Prop where
  blank : d.entries = []
  placed : d.Placed

theorem Gains.placed (h : d.Gains d' ns) (hd : d.Placed) : d'.Placed := by
  rwa [Placed, h.start, h.input]

theorem gains_suggest (hd : d.Placed) (t : Text) (tooltip : Option Text) :
    d.Gains (d.suggest t tooltip) [] := by
  unfold suggest
  split_ifs with htyped
  · exact .refl d
  · exact ⟨rfl, rfl, _, rfl, List.forall_mem_singleton.mpr (.text hd htyped tooltip), rfl⟩

theorem gains_suggestInteger (hd : d.Placed) (n : Int) (tooltip : Option Text) :
    d.Gains (d.suggestInteger n tooltip) [(d.start, n)] :=
  ⟨rfl, rfl, _, rfl, List.forall_mem_singleton.mpr (.number hd n tooltip), rfl⟩

/-- A draft that was opened is empty, on the input and at the position it was asked for. -/
theorem openAt_ok {lower : Text} {start : Int} (h : openAt input lower start = .ok d) :
    d.input = input ∧ d.start = start.toNat ∧ d.Unfilled := by
  unfold openAt at h
  split_ifs at h with hin
  cases h
  exact ⟨rfl, rfl, rfl, by simp only [Placed]; omega⟩

mutual
/-- A call gains its numbers. -/
theorem gains_edit {d d' : Draft} (hd : d.Placed) (c : Edit) (h : d.edit c = .ok d') :
    d.Gains d' (c.numbers d.start) := by
  cases c with
  | text t tooltip =>
    cases h
    exact gains_suggest hd t tooltip
  | number n tooltip =>
    cases h
    exact gains_suggestInteger hd n tooltip
  | offset start edits =>
    rw [edit] at h
    cases he : d.offset start with
    | error f => simp [he] at h
    | ok e =>
      simp only [he] at h
      obtain ⟨hinput, hstart, hunfilled⟩ := openAt_ok he
      obtain ⟨e', he', rfl⟩ := map_eq_ok_iff.mp h
      rw [Edit.numbers, ← hstart]
      exact (gains_editAll hunfilled.placed edits he').add hinput hunfilled.blank
  | restart edits =>
    obtain ⟨e', he', rfl⟩ := map_eq_ok_iff.mp h
    have hgains := gains_editAll (d := d.restart) hd edits he'
    exact Gains.add (e := d.restart) rfl rfl hgains

theorem gains_editAll {d d' : Draft} (hd : d.Placed) (calls : List Edit)
    (h : d.editAll calls = .ok d') :
    d.Gains d' (Edit.numbersAll d.start calls) := by
  cases calls with
  | nil =>
    cases h
    exact .refl d
  | cons c rest =>
    rw [editAll] at h
    cases hc : d.edit c with
    | error f => simp [hc] at h
    | ok d₁ =>
      simp only [hc] at h
      have hone := gains_edit hd c hc
      have hrest := gains_editAll (hone.placed hd) rest h
      rw [hone.start] at hrest
      exact hone.trans hrest
end

/-- Calls on an empty draft leave suggestions in it that were offered for its input. -/
theorem offered_of_editAll (hd : d.Unfilled) {calls : List Edit} (h : d.editAll calls = .ok d') :
    d'.input = d.input ∧ (∀ s ∈ d'.entries, s.Offered d.input) ∧
      d'.entries.filterMap Suggestion.numbered = Edit.numbersAll d.start calls := by
  have hgains := gains_editAll hd.placed calls h
  obtain ⟨new, hnew, hoffered, hnumbers⟩ := hgains.entries
  rw [hd.blank, List.nil_append] at hnew
  exact ⟨hgains.input, hnew ▸ hoffered, hnew ▸ hnumbers⟩

open Suggestion Suggestions in
/-- A list is built from any calls on a draft. It has a suggestion that gives the input back exactly if
some call suggests a number that reads as what stands behind the position of the draft that takes it;
and such a suggestion was made from a number. -/
theorem build_noop_iff {lower : Text} {start : Int} (hd : openAt input lower start = .ok d)
    {calls : List Edit} (h : d.editAll calls = .ok d') :
    ∃ all, d'.build = .ok all ∧
      ((∃ s ∈ all.list, s.apply input = .ok input) ↔
        ∃ x ∈ Edit.numbersAll d.start calls, Decimal.integer x.2 = input.drop x.1) ∧
      ∀ s ∈ all.list, s.apply input = .ok input → s.number.isSome = true := by
  obtain ⟨hopened, -, hunfilled⟩ := openAt_ok hd
  obtain ⟨hinput, hoffered, hnumbers⟩ := offered_of_editAll hunfilled h
  rw [hopened] at hinput hoffered
  have hin : ∀ s ∈ d'.entries, s.span.Inside input := fun s hs => (hoffered s hs).inside
  refine ⟨_, by rw [build, hinput]; exact create_eq_settled hin, ?_, fun s hs hnoop => ?_⟩
  · rw [apply_mem_settled hin, ← hnumbers]
    simp only [List.mem_filterMap]
    constructor
    · rintro ⟨s, hs, hnoop⟩
      obtain ⟨x, hx, htyped⟩ := (hoffered s hs).apply_eq_iff.mp hnoop
      exact ⟨x, ⟨s, hs, hx⟩, htyped⟩
    · rintro ⟨x, ⟨s, hs, hx⟩, htyped⟩
      exact ⟨s, hs, (hoffered s hs).apply_eq_iff.mpr ⟨x, hx, htyped⟩⟩
  · obtain ⟨t, ht, rfl⟩ := mem_settled hs
    rw [apply_widened (hin t ht) (commonSpan_inside (List.ne_nil_of_mem ht) hin)
      (commonSpan_covers ht)] at hnoop
    obtain ⟨x, hx, -⟩ := (hoffered t ht).apply_eq_iff.mp hnoop
    simpa [numbered, widened] using congrArg Option.isSome hx

/-- Of a roll of the dice `6` has been typed. The text is turned down wherever it is suggested; the
number is kept, and widened over the word before it. -/
def rolls : List Edit :=
  [.text (text "6") none, .number 6 (some (text "six")),
    .offset 0 [.text (text "roll 6") none, .text (text "rest") none, .restart [.number 16 none]]]

theorem build_noop_rolls :
    ∃ d d' all, openAt (text "roll 6") (text "roll 6") 5 = .ok d ∧ d.editAll rolls = .ok d' ∧
      d'.build = .ok all ∧ (∃ s ∈ all.list, s.apply (text "roll 6") = .ok (text "roll 6")) ∧
      all = ⟨⟨0, 6⟩, [⟨⟨0, 6⟩, text "16", none, some 16⟩, ⟨⟨0, 6⟩, text "rest", none, none⟩,
        ⟨⟨0, 6⟩, text "roll 6", some (text "six"), some 6⟩]⟩ := by
  have hd : openAt (text "roll 6") (text "roll 6") 5 =
      .ok ⟨text "roll 6", text "roll 6", 5, []⟩ := rfl
  have hchanged : (Draft.mk (text "roll 6") (text "roll 6") 5 []).editAll rolls =
      .ok ⟨text "roll 6", text "roll 6", 5, [.ofInteger ⟨5, 6⟩ 6 (some (text "six")),
        .ofText ⟨0, 6⟩ (text "rest") none, .ofInteger ⟨0, 6⟩ 16 none]⟩ := by cbv
  obtain ⟨all, hall, hnoop, -⟩ := build_noop_iff hd hchanged
  refine ⟨_, _, all, hd, hchanged, hall, hnoop.mpr ⟨(5, 6), by decide, by cbv⟩, ?_⟩
  refine Except.ok.inj (hall.symm.trans ?_)
  cbv

/-- A number that reads as what has been typed is suggested all the same. -/
theorem build_keeps_typed_number :
    ¬ ∀ (input lower : Text) (start : Int) (calls : List Edit) (d d' : Draft) (all : Suggestions),
      openAt input lower start = .ok d → d.editAll calls = .ok d' → d'.build = .ok all →
      ∀ s ∈ all.list, s.apply input ≠ .ok input := by
  intro h
  have hbuild : Draft.build ⟨text "5", text "5", 0, [.ofInteger ⟨0, 1⟩ 5 none]⟩ =
      .ok ⟨⟨0, 1⟩, [.ofInteger ⟨0, 1⟩ 5 none]⟩ := Suggestions.create_singleton _ _
  exact h (text "5") (text "5") 0 [.number 5 none] _ _ _ rfl rfl hbuild _ List.mem_cons_self
    (by cbv)

end Draft

end CommandTree
