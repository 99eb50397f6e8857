import CommandTree.Proofs.Gathering
import Mathlib

/-!
What a list of suggestions is brought to. Main statement: from suggestions inside the command a list is
created for the smallest span that covers them; it has each of the widened texts once, with what came
with the first suggestion of that text, in strictly increasing order. The order is a total one on all
texts, so the texts come out the same in whatever order the suggestions are given.
-/

namespace CommandTree

namespace Suggestions

open Suggestion

variable {command : Text} {a : Span} {ss : List Suggestion} {s : Suggestion}

/-- The list was made from these suggestions, brought to its span. -/
structure Settles (command : Text) (ss : List Suggestion) (all : Suggestions) : Prop where
  /-- The span is the smallest of those that cover all suggestions. -/
  least : ∀ a : Span, a.Covers all.span ↔ ∀ s ∈ ss, a.Covers s.span
  widens : ∀ s ∈ ss, s.widen command all.span = .ok (s.widened command all.span)
  span : ∀ s ∈ all.list, s.span = all.span
  texts : ∀ t, t ∈ all.list.map Suggestion.text ↔ ∃ s ∈ ss, (s.widened command all.span).text = t
  nodup : (all.list.map Suggestion.text).Nodup
  /-- Each is the first suggestion that was widened to its text. -/
  first : ∀ s ∈ all.list, ∃ before t after, ss = before ++ t :: after ∧
    (t.widened command all.span).text = s.text ∧ s.tooltip = t.tooltip ∧ s.number = t.number ∧
    ∀ u ∈ before, (u.widened command all.span).text ≠ s.text
  increasing : all.list.Pairwise fun a b => a.text.precedes b.text = true

theorem settled_perm (command : Text) (a : Span) (ss : List Suggestion) :
    (settled command a ss).Perm (distinct (ss.map (widened command a))) :=
  List.mergeSort_perm _ _

theorem mem_settled_iff : s ∈ settled command a ss ↔
    (ss.find? fun t => (t.widened command a).text = s.text).map (widened command a) = some s := by
  rw [(settled_perm command a ss).mem_iff, mem_distinct_iff, List.find?_map]
  rfl

/-- What is listed is the first suggestion of its text. -/
theorem first_of_mem_settled (h : s ∈ settled command a ss) :
    ∃ before t after, ss = before ++ t :: after ∧ t.widened command a = s ∧
      ∀ u ∈ before, (u.widened command a).text ≠ s.text := by
  obtain ⟨t, hfind, ht⟩ := Option.map_eq_some_iff.mp (mem_settled_iff.mp h)
  obtain ⟨-, before, after, hsplit, hbefore⟩ := List.find?_eq_some_iff_append.mp hfind
  exact ⟨before, t, after, hsplit, ht, fun u hu => by simpa using hbefore u hu⟩

theorem text_mem_settled {t : Text} :
    t ∈ (settled command a ss).map Suggestion.text ↔ ∃ s ∈ ss, (s.widened command a).text = t := by
  rw [((settled_perm command a ss).map Suggestion.text).mem_iff, text_mem_distinct, List.map_map,
    List.mem_map]
  rfl

theorem nodup_settled (command : Text) (a : Span) (ss : List Suggestion) :
    ((settled command a ss).map Suggestion.text).Nodup :=
  ((settled_perm command a ss).map Suggestion.text).nodup_iff.mpr (nodup_distinct _)

/-- Without repeated texts the order is a strict one. -/
theorem increasing_settled (command : Text) (a : Span) (ss : List Suggestion) :
    (settled command a ss).Pairwise fun s t => s.text.precedes t.text = true := by
  refine (pairwise_sorted _).imp₂ (fun s t hts hne => ?_)
    (List.pairwise_map.mp (nodup_settled command a ss))
  by_contra hst
  exact hne (Text.eq_of_not_precedes ((Bool.not_eq_true _).mp hst) hts)

theorem settles_settled (hne : ss ≠ []) (hin : ∀ s ∈ ss, s.span.Inside command) :
    Settles command ss ⟨commonSpan ss, settled command (commonSpan ss) ss⟩ where
  least _ := covers_commonSpan hne
  widens s hs :=
    widen_eq_widened (commonSpan_inside hne hin).start_nonneg (hin s hs) (commonSpan_covers hs)
  span s hs := by
    obtain ⟨t, -, rfl⟩ := mem_settled hs
    rfl
  texts _ := text_mem_settled
  nodup := nodup_settled _ _ _
  first s hs := by
    obtain ⟨before, t, after, hsplit, rfl, hbefore⟩ := first_of_mem_settled hs
    exact ⟨before, t, after, hsplit, rfl, rfl, rfl, hbefore⟩
  increasing := increasing_settled _ _ _

/-- From suggestions inside the command a list is created that is settled: one span, each text once and
from the first suggestion that has it, in increasing order. The order looks at the bytes only where two
texts differ in case only, and it is a strict total order on all texts; and the texts do not depend on
the order in which the suggestions were given. -/
theorem create_settles (command : Text) (ss : List Suggestion) (hne : ss ≠ [])
    (hin : ∀ s ∈ ss, s.span.Inside command) :
    (∃ all, create command ss = .ok all ∧ Settles command ss all ∧
      ∀ ts, ss.Perm ts → ∃ all', create command ts = .ok all' ∧ all.SameTexts all') ∧
    (IsStrictTotalOrder Text fun a b => a.precedes b = true) ∧
    ∀ a b : Text, a.precedes b = true ↔
      a.caselessKey < b.caselessKey ∨ a.lower = b.lower ∧ a < b := by
  refine ⟨⟨_, create_eq_settled hin, settles_settled hne hin, fun ts hperm => ?_⟩,
    Text.precedes_isStrictTotalOrder, fun a b => ?_⟩
  · have hagree : Agree SameTexts (create command ss) (create command ts) := create_of_perm hperm
    rw [create_eq_settled hin] at hagree
    generalize create command ts = created at hagree
    cases hagree with
    | ok same => exact ⟨_, rfl, same⟩
  · rw [Text.precedes_iff, Text.caselessKey_eq_iff]

/-- Both ways to say `give` are widened to one text. Bytes from 128 up stand before letters and the
underscore behind them, and a capital letter stands before a small one. -/
def chores : List Suggestion :=
  [.ofText ⟨3, 4⟩ (text "_") none, .ofText ⟨3, 4⟩ (text "give") (some (text "first")),
    .ofText ⟨0, 4⟩ (text "go give") (some (text "second")), .ofText ⟨0, 4⟩ (text "go Give") none,
    .ofText ⟨3, 3⟩ [195, 169] none]

theorem chores_inside : ∀ s ∈ chores, s.span.Inside (text "go g") := by
  have hspan : ∀ s ∈ chores, 0 ≤ s.span.start ∧ s.span.start ≤ s.span.stop ∧
      s.span.stop ≤ ((text "go g").length : Int) := by decide
  exact fun s hs => ⟨(hspan s hs).1, (hspan s hs).2.1, (hspan s hs).2.2⟩

theorem create_settles_chores :
    chores ≠ [] ∧ (∀ s ∈ chores, s.span.Inside (text "go g")) ∧
    ∃ all, create (text "go g") chores = .ok all ∧ Settles (text "go g") chores all ∧
      all = ⟨⟨0, 4⟩, [⟨⟨0, 4⟩, text "go " ++ [195, 169] ++ text "g", none, none⟩,
        ⟨⟨0, 4⟩, text "go Give", none, none⟩,
        ⟨⟨0, 4⟩, text "go give", some (text "first"), none⟩, ⟨⟨0, 4⟩, text "go _", none, none⟩]⟩ := by
  have hne : chores ≠ [] := List.cons_ne_nil _ _
  obtain ⟨⟨all, hall, hsettles, -⟩, -⟩ := create_settles (text "go g") chores hne chores_inside
  refine ⟨hne, chores_inside, all, hall, hsettles, Except.ok.inj (hall.symm.trans ?_)⟩
  cbv

end Suggestions

end CommandTree
