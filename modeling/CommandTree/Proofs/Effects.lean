import CommandTree.Proofs.Settling
import Mathlib

/-!
What suggestions do to a command. Applying one is widening it to the whole command, so widening it
before changes nothing, and suggestions of one span do the same only if they have the same text. Main
statement: a created list does to the command what the suggestions did that it was made from, and no two
of its suggestions do the same.
-/

namespace CommandTree

namespace Text

theorem first_eq_between (t : Text) {i : Int} (h : 0 ≤ i) : t.first i = t.between 0 i := by
  rw [first, if_neg (by omega), between, Int.toNat_zero, List.drop_zero]

theorem cut_eq_between (t : Text) {i : Int} (h : 0 ≤ i) (hi : i ≤ t.length) :
    t.cut i (-1) = .ok (t.between i t.length) := by
  rw [cut, slice?, if_pos ⟨h, hi⟩, between, Int.toNat_natCast, List.take_length]
  rfl

end Text

namespace Suggestion

variable {command : Text} {a b : Span} {s t : Suggestion}

/-- A suggestion for the whole command takes its place. -/
theorem apply_eq_widened (h : s.span.Inside command) :
    s.apply command = .ok (s.widened command (.whole command)).text := by
  obtain ⟨h0, hle, hlen⟩ := h
  have hbefore := command.first_eq_between h0
  simp only [apply, widened, Span.whole]
  split_ifs with hwhole hstop
  · rw [hwhole.1, hwhole.2, Text.between_self, Text.between_self, List.nil_append, List.append_nil]
  · rw [command.cut_eq_between (h0.trans hle) hlen, hbefore]
    rfl
  · rw [hbefore, show s.span.stop = command.length by omega, Text.between_self, List.append_nil]

/-- Widening does not change what a suggestion does to the command. -/
theorem apply_widened (hs : s.span.Inside command) (ha : a.Inside command) (hc : a.Covers s.span) :
    (s.widened command a).apply command = s.apply command := by
  rw [apply_eq_widened (show (s.widened command a).span.Inside command from ha),
    apply_eq_widened hs, widened_widened hc ha.covers_whole]

/-- Suggestions of one span do the same only if they have the same text. -/
theorem apply_eq_iff (hs : s.span.Inside command) (h : s.span = t.span) :
    s.apply command = t.apply command ↔ s.text = t.text := by
  rw [apply_eq_widened hs, apply_eq_widened (h ▸ hs), Except.ok.injEq, text_widened_iff h]

/-- A span that begins before the command is too wide for every suggestion. -/
theorem widen_eq_error (hs : 0 ≤ s.span.start) (hb : b.start < 0) :
    s.widen command b = .error .outOfRange := by
  have hne : b ≠ s.span := fun heq => by
    rw [heq] at hb
    omega
  have hcut : command.cut b.start (s.span.start - b.start) = .error .outOfRange := by
    rw [Text.cut, Text.slice?, if_neg (by omega)]
  rw [widen, if_neg hne, if_pos (by omega), hcut]
  rfl

/-- Widening to a span of the command and then to a wider one is widening to that one, also where that
fails. -/
theorem widen_widened (hs : s.span.Inside command) (ha : a.Inside command) (hc : a.Covers s.span)
    (hb : b.Covers a) : (s.widened command a).widen command b = s.widen command b := by
  by_cases h0 : 0 ≤ b.start
  · have hinside : (s.widened command a).span.Inside command := ha
    rw [widen_eq_widened h0 hinside hb, widen_eq_widened h0 hs (hb.trans hc),
      widened_widened hc hb]
  · have hneg : b.start < 0 := not_le.mp h0
    have hstart : 0 ≤ (s.widened command a).span.start := ha.start_nonneg
    rw [widen_eq_error hstart hneg, widen_eq_error hs.start_nonneg hneg]

end Suggestion

namespace Suggestions

open Suggestion

variable {command : Text} {ss : List Suggestion}

/-- What is settled is for a span inside the command. -/
theorem span_of_mem_settled (hin : ∀ s ∈ ss, s.span.Inside command) {s : Suggestion}
    (h : s ∈ settled command (commonSpan ss) ss) :
    s.span = commonSpan ss ∧ s.span.Inside command := by
  obtain ⟨t, ht, rfl⟩ := mem_settled h
  exact ⟨rfl, commonSpan_inside (List.ne_nil_of_mem ht) hin⟩

/-- What a settled suggestion does, the one did that it was widened from. -/
theorem apply_mem_settled (hin : ∀ s ∈ ss, s.span.Inside command) {x : Except Fault Text} :
    (∃ s ∈ settled command (commonSpan ss) ss, s.apply command = x) ↔
      ∃ s ∈ ss, s.apply command = x := by
  have hsame : ∀ s ∈ ss,
      (s.widened command (commonSpan ss)).apply command = s.apply command := fun s hs =>
    apply_widened (hin s hs) (commonSpan_inside (List.ne_nil_of_mem hs) hin) (commonSpan_covers hs)
  constructor
  · rintro ⟨s, hs, rfl⟩
    obtain ⟨t, ht, rfl⟩ := mem_settled hs
    exact ⟨t, ht, (hsame t ht).symm⟩
  · rintro ⟨s, hs, rfl⟩
    obtain ⟨t, ht, htext⟩ := List.mem_map.mp (text_mem_settled.mpr ⟨s, hs, rfl⟩)
    obtain ⟨hspan, hinside⟩ := span_of_mem_settled hin ht
    refine ⟨t, ht, ?_⟩
    rw [← hsame s hs]
    exact (apply_eq_iff hinside hspan).mpr htext

/-- No two settled suggestions do the same. -/
theorem nodup_apply_settled (hin : ∀ s ∈ ss, s.span.Inside command) :
    ((settled command (commonSpan ss) ss).map fun s => s.apply command).Nodup := by
  refine List.pairwise_map.mpr ?_
  refine (List.pairwise_map.mp (nodup_settled command (commonSpan ss) ss)).imp_of_mem
    fun hs ht hne heq => hne ?_
  obtain ⟨hspan, hinside⟩ := span_of_mem_settled hin hs
  exact (apply_eq_iff hinside (hspan.trans (span_of_mem_settled hin ht).1.symm)).mp heq

/-- Widening a suggestion to a span of the command does not change what it does, nor what it is widened
to from there. So the suggestions of a created list do to the command what those did that it was created
from, and each of them something else. -/
theorem create_same_effects (command : Text) :
    (∀ (s : Suggestion) (a : Span), s.span.Inside command → a.Inside command → a.Covers s.span →
      ∃ t x, s.widen command a = .ok t ∧ t.apply command = .ok x ∧ s.apply command = .ok x ∧
        ∀ b : Span, b.Covers a → t.widen command b = s.widen command b) ∧
    ∀ ss : List Suggestion, (∀ s ∈ ss, s.span.Inside command) →
      ∃ all effects, create command ss = .ok all ∧
        all.list.mapM (fun s => s.apply command) = .ok effects ∧ effects.Nodup ∧
        ∀ x, x ∈ effects ↔ ∃ s ∈ ss, s.apply command = .ok x := by
  constructor
  · intro s a hs ha hc
    have hsame := apply_widened hs ha hc
    rw [apply_eq_widened hs] at hsame
    exact ⟨_, _, widen_eq_widened ha.start_nonneg hs hc, hsame, apply_eq_widened hs,
      fun b hb => widen_widened hs ha hc hb⟩
  · intro ss hin
    have happly : ∀ s ∈ settled command (commonSpan ss) ss,
        s.apply command = .ok (s.widened command (.whole command)).text :=
      fun s hs => apply_eq_widened (span_of_mem_settled hin hs).2
    refine ⟨_, _, create_eq_settled hin, mapM_eq_ok_map happly, ?_, fun x => ?_⟩
    · refine List.Nodup.of_map (.ok : Text → Except Fault Text) ?_
      rw [List.map_map]
      exact List.map_congr_left happly ▸ nodup_apply_settled hin
    · rw [← apply_mem_settled hin, List.mem_map]
      refine exists_congr fun s => and_congr_right fun hs => ?_
      rw [happly s hs, Except.ok.injEq]

/-- A part of a word is put in before the letter, and then for the whole line. Of the five chores two have
the same effect. -/
theorem create_same_effects_chores :
    (⟨3, 3⟩ : Span).Inside (text "go g") ∧ (⟨0, 4⟩ : Span).Inside (text "go g") ∧
    (⟨0, 4⟩ : Span).Covers ⟨3, 3⟩ ∧ (∀ s ∈ chores, s.span.Inside (text "go g")) ∧
    (∃ t, (ofText ⟨3, 3⟩ (text "al") none).widen (text "go g") ⟨0, 4⟩ = .ok t ∧
      t.apply (text "go g") = .ok (text "go alg")) ∧
    ∃ all effects, create (text "go g") chores = .ok all ∧
      all.list.mapM (fun s => s.apply (text "go g")) = .ok effects ∧ effects.Nodup ∧
      ∀ x, x ∈ effects ↔ x = text "go _" ∨ x = text "go give" ∨ x = text "go Give" ∨
        x = text "go " ++ [195, 169] ++ text "g" := by
  have hpoint : (⟨3, 3⟩ : Span).Inside (text "go g") := ⟨by decide, by decide, by decide⟩
  have hline : (⟨0, 4⟩ : Span).Inside (text "go g") := ⟨by decide, by decide, by decide⟩
  have hcovers : (⟨0, 4⟩ : Span).Covers ⟨3, 3⟩ := ⟨by decide, by decide⟩
  obtain ⟨hone, hall⟩ := create_same_effects (text "go g")
  obtain ⟨t, x, ht, hx, happly, -⟩ :=
    hone (ofText ⟨3, 3⟩ (text "al") none) ⟨0, 4⟩ hpoint hline hcovers
  have heval : (ofText ⟨3, 3⟩ (text "al") none).apply (text "go g") = .ok (text "go alg") := by cbv
  obtain rfl := Except.ok.inj (heval.symm.trans happly)
  obtain ⟨all, effects, hcreate, hmap, hnodup, hmem⟩ := hall chores chores_inside
  refine ⟨hpoint, hline, hcovers, chores_inside, ⟨t, ht, hx⟩, all, effects, hcreate, hmap, hnodup,
    fun x => ?_⟩
  have heffects : chores.map (fun s => s.apply (text "go g")) =
      [.ok (text "go _"), .ok (text "go give"), .ok (text "go give"), .ok (text "go Give"),
        .ok (text "go " ++ [195, 169] ++ text "g")] := by
    cbv
  rw [hmem, ← List.mem_map, heffects]
  simp

end Suggestions

end CommandTree
