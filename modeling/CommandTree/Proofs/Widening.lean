import CommandTree.Proofs.TextOrder
import CommandTree.Proofs.Traversal
import CommandTree.Suggestion
import Mathlib

/-!
Bringing suggestions to one span. Widening a suggestion twice is widening it once, and texts of one
span are told apart by what they are widened to; so it does not matter whether suggestions are brought
together all at once or group by group. Main statement: merging lists that were created from several
groups is creating one list from all of them.
-/

namespace CommandTree

namespace Span

/-- The span lies inside a text. -/
structure Inside (t : Text) (s : Span) : Prop where
  start_nonneg : 0 ≤ s.start
  start_le_stop : s.start ≤ s.stop
  stop_le : s.stop ≤ t.length

/-- The span reaches as far as another one on both sides. -/
structure Covers (a b : Span) : Prop where
  start_le : a.start ≤ b.start
  stop_le : b.stop ≤ a.stop

/-- The span of a whole text. -/
def whole (t : Text) : Span := ⟨0, t.length⟩

variable {a b c : Span}

theorem Inside.covers_whole {t : Text} (h : a.Inside t) : (whole t).Covers a :=
  ⟨h.start_nonneg, h.stop_le⟩

theorem Covers.refl (a : Span) : a.Covers a := ⟨Int.le_refl _, Int.le_refl _⟩

theorem Covers.trans (hab : a.Covers b) (hbc : b.Covers c) : a.Covers c :=
  ⟨hab.start_le.trans hbc.start_le, hbc.stop_le.trans hab.stop_le⟩

theorem Covers.antisymm (hab : a.Covers b) (hba : b.Covers a) : a = b := by
  have hstart := hab.start_le.antisymm hba.start_le
  have hstop := hba.stop_le.antisymm hab.stop_le
  cases a; cases b; simp_all

theorem covers_union : c.Covers (a.union b) ↔ c.Covers a ∧ c.Covers b := by
  constructor
  · rintro ⟨hstart, hstop⟩
    simp only [union] at hstart hstop
    exact ⟨⟨by omega, by omega⟩, ⟨by omega, by omega⟩⟩
  · rintro ⟨⟨ha, ha'⟩, ⟨hb, hb'⟩⟩
    exact ⟨by simp only [union]; omega, by simp only [union]; omega⟩

end Span

namespace Text

/-- The bytes of a text between two positions. -/
def between (t : Text) (i j : Int) : Text := (t.take j.toNat).drop i.toNat

theorem between_self (t : Text) (i : Int) : t.between i i = [] := by
  simp [between]

theorem between_append (t : Text) {i j k : Int} (hij : i ≤ j) (hjk : j ≤ k) :
    t.between i j ++ t.between j k = t.between i k := by
  have hi : i.toNat ≤ j.toNat := Int.toNat_le_toNat hij
  have hj : j.toNat ≤ k.toNat := Int.toNat_le_toNat hjk
  have htake : t.take j.toNat = (t.take k.toNat).take j.toNat := by
    rw [List.take_take, Nat.min_eq_left hj]
  calc t.between i j ++ t.between j k
      = ((t.take k.toNat).take j.toNat).drop i.toNat ++ (t.take k.toNat).drop j.toNat := by
        rw [between, between, htake]
    _ = ((t.take k.toNat).drop i.toNat).take (j.toNat - i.toNat) ++
          ((t.take k.toNat).drop i.toNat).drop (j.toNat - i.toNat) := by
        rw [List.drop_take, List.drop_drop, Nat.add_sub_cancel' hi]
    _ = t.between i k := List.take_append_drop _ _

theorem cut_between (t : Text) {i j : Int} (h0 : 0 ≤ i) (hij : i ≤ j) (hj : i ≤ t.length) :
    t.cut i (j - i) = .ok (t.between i j) := by
  have hcount : ¬ j - i < 0 := by omega
  have hlen : (j - i).toNat = j.toNat - i.toNat := by omega
  rw [cut, slice?, if_pos ⟨h0, hj⟩]
  simp only [hcount, if_false, hlen, between, List.drop_take]

end Text

namespace Suggestion

variable {command : Text} {a b : Span} {s t : Suggestion}

/-- The suggestion for a wider span. -/
def widened (command : Text) (span : Span) (s : Suggestion) : Suggestion :=
  { s with
    span
    text := command.between span.start s.span.start ++ s.text ++
      command.between s.span.stop span.stop }

@[simp] theorem span_widened (command : Text) (span : Span) (s : Suggestion) :
    (s.widened command span).span = span := rfl

theorem widened_self (command : Text) (s : Suggestion) : s.widened command s.span = s := by
  simp [widened, Text.between_self]

/-- Inside the command widening succeeds; only a span that begins before the command is too wide. -/
theorem widen_eq_widened (ha0 : 0 ≤ a.start) (hs : s.span.Inside command)
    (hc : a.Covers s.span) : s.widen command a = .ok (s.widened command a) := by
  obtain ⟨hs0, hs1, hs2⟩ := hs
  have hbefore := command.cut_between ha0 hc.start_le (hc.start_le.trans (hs1.trans hs2))
  have hafter := command.cut_between (hs0.trans hs1) hc.stop_le hs2
  -- Where a side is not widened, nothing lies between its old end and its new one.
  have hstart : ¬ a.start < s.span.start → command.between a.start s.span.start = [] := fun hlt => by
    rw [le_antisymm hc.start_le (not_lt.mp hlt), Text.between_self]
  have hstop : ¬ s.span.stop < a.stop → command.between s.span.stop a.stop = [] := fun hlt => by
    rw [le_antisymm hc.stop_le (not_lt.mp hlt), Text.between_self]
  by_cases heq : a = s.span
  · rw [widen, if_pos heq, heq, widened_self]
  · rw [widen, if_neg heq, widened]
    by_cases hlt : a.start < s.span.start <;> by_cases hlt' : s.span.stop < a.stop <;>
      simp [hlt, hlt', hbefore, hafter, hstart, hstop, bind, Except.bind]

theorem mapM_widen {ss : List Suggestion} (ha : a.Inside command)
    (hs : ∀ s ∈ ss, s.span.Inside command) (hc : ∀ s ∈ ss, a.Covers s.span) :
    ss.mapM (widen command a) = .ok (ss.map (widened command a)) :=
  mapM_eq_ok_map fun s hmem => widen_eq_widened ha.start_nonneg (hs s hmem) (hc s hmem)

/-- Widening in two steps is widening in one. -/
theorem widened_widened (ha : a.Covers s.span) (hb : b.Covers a) :
    (s.widened command a).widened command b = s.widened command b := by
  have hbefore := command.between_append hb.start_le ha.start_le
  have hafter := command.between_append ha.stop_le hb.stop_le
  simp only [widened, ← hbefore, ← hafter, List.append_assoc]

/-- Suggestions of one span have the same text exactly when they have once widened. -/
theorem text_widened_iff (h : s.span = t.span) :
    (s.widened command a).text = (t.widened command a).text ↔ s.text = t.text := by
  simp only [widened, h, List.append_assoc, List.append_cancel_left_eq, List.append_cancel_right_eq]

/-- A span covers the hull of suggestions exactly when it covers each of them. -/
theorem covers_hull {rest : List Suggestion} :
    a.Covers (hull s rest) ↔ ∀ t ∈ s :: rest, a.Covers t.span := by
  have hfold : ∀ (ts : List Suggestion) (b : Span),
      a.Covers (ts.foldl (fun span t => span.union t.span) b) ↔
        a.Covers b ∧ ∀ t ∈ ts, a.Covers t.span := by
    intro ts
    induction ts with
    | nil => simp
    | cons t ts ih => simp [ih, Span.covers_union, and_assoc]
  rw [hull, hfold, List.forall_mem_cons]

/-! Keeping the first suggestion of each text -/

theorem nodup_distinct (ss : List Suggestion) : ((distinct ss).map text).Nodup := by
  induction ss with
  | nil => exact List.nodup_nil
  | cons s ss ih =>
    rw [distinct, List.map_cons, List.nodup_cons]
    refine ⟨fun hmem => ?_, (List.filter_sublist.map text).nodup ih⟩
    obtain ⟨t, ht, htext⟩ := List.mem_map.mp hmem
    simp [htext] at ht

theorem mem_of_mem_distinct {ss : List Suggestion} (h : s ∈ distinct ss) : s ∈ ss := by
  induction ss with
  | nil => exact h
  | cons t ss ih =>
    rw [distinct] at h
    rcases List.mem_cons.mp h with rfl | h
    · exact List.mem_cons_self
    · exact List.mem_cons_of_mem t (ih (List.mem_of_mem_filter h))

/-- A search that only looks at texts finds the same suggestion as without the repeated texts. -/
theorem find?_distinct {p : Suggestion → Bool} {ss : List Suggestion}
    (hp : ∀ s ∈ ss, ∀ t ∈ ss, s.text = t.text → p s = p t) :
    (distinct ss).find? p = ss.find? p := by
  induction ss with
  | nil => rfl
  | cons s ss ih =>
    have hss : (distinct ss).find? p = ss.find? p := ih fun t ht u hu =>
      hp t (List.mem_cons_of_mem s ht) u (List.mem_cons_of_mem s hu)
    by_cases hs : p s = true
    · simp [distinct, hs]
    · -- What the filter takes away has the text of the first suggestion, so the search skips it too.
      have hfilter : ((distinct ss).filter fun t => t.text ≠ s.text).find? p =
          (distinct ss).find? p := by
        rw [List.find?_filter]
        refine List.find?_congr fun t ht => ?_
        by_cases htext : t.text = s.text
        · have hpt := hp t (List.mem_cons_of_mem s (mem_of_mem_distinct ht)) s List.mem_cons_self htext
          simp [hpt, hs]
        · simp [htext]
      rw [distinct, List.find?_cons, List.find?_cons, hfilter, hss]

/-- What is kept is the first suggestion of its text. -/
theorem mem_distinct_iff {ss : List Suggestion} :
    s ∈ distinct ss ↔ ss.find? (fun t => t.text = s.text) = some s := by
  rw [← find?_distinct fun t _ u _ htext => by rw [htext]]
  constructor
  · intro h
    have hsome : ((distinct ss).find? fun t => t.text = s.text).isSome :=
      List.find?_isSome.mpr ⟨s, h, by simp⟩
    obtain ⟨t, ht⟩ := Option.isSome_iff_exists.mp hsome
    have htext : t.text = s.text := by simpa using List.find?_some ht
    rw [ht, List.inj_on_of_nodup_map (nodup_distinct ss) (List.mem_of_find?_eq_some ht) h htext]
  · exact List.mem_of_find?_eq_some

/-! Putting suggestions in order -/

/-- Where suggestions were put in order, none stands behind one that its text precedes. -/
theorem pairwise_sorted (ss : List Suggestion) :
    (ss.mergeSort fun a b => !b.text.precedes a.text).Pairwise
      fun a b => b.text.precedes a.text = false := by
  have htrans : ∀ a b c : Suggestion, (!b.text.precedes a.text) = true →
      (!c.text.precedes b.text) = true → (!c.text.precedes a.text) = true := by
    intro a b c hab hbc
    simp only [Bool.not_eq_true'] at hab hbc ⊢
    exact Text.not_precedes_trans hbc hab
  have htotal : ∀ a b : Suggestion,
      ((!b.text.precedes a.text) || !a.text.precedes b.text) = true := by
    intro a b
    cases hab : a.text.precedes b.text with
    | false => simp
    | true => simp [Text.precedes_asymm hab]
  simpa using List.pairwise_mergeSort htrans htotal ss

/-- Suggestions with different texts can be put in order in one way only. -/
theorem mergeSort_eq_of_perm {ss ts : List Suggestion} (h : ss.Perm ts)
    (hn : (ss.map text).Nodup) :
    (ss.mergeSort fun a b => !b.text.precedes a.text) =
      ts.mergeSort fun a b => !b.text.precedes a.text := by
  have hperm : (ss.mergeSort fun a b => !b.text.precedes a.text).Perm
      (ts.mergeSort fun a b => !b.text.precedes a.text) :=
    (List.mergeSort_perm _ _).trans (h.trans (List.mergeSort_perm _ _).symm)
  refine hperm.eq_of_pairwise (fun a b ha hb hab hba => ?_) (pairwise_sorted ss) (pairwise_sorted ts)
  exact List.inj_on_of_nodup_map hn (List.mem_mergeSort.mp ha)
    (h.mem_iff.mpr (List.mem_mergeSort.mp hb)) (Text.eq_of_not_precedes hba hab)

end Suggestion

namespace Suggestions

open Suggestion

variable {command : Text} {a b : Span} {ss ts : List Suggestion}

/-- The span that suggestions are brought to. -/
def commonSpan : List Suggestion → Span
  | [] => .zero
  | s :: rest => hull s rest

theorem covers_commonSpan (h : ss ≠ []) :
    a.Covers (commonSpan ss) ↔ ∀ s ∈ ss, a.Covers s.span := by
  cases ss with
  | nil => contradiction
  | cons s rest => exact covers_hull

theorem commonSpan_covers {s : Suggestion} (h : s ∈ ss) : (commonSpan ss).Covers s.span :=
  (covers_commonSpan (List.ne_nil_of_mem h)).mp (.refl _) s h

/-- The common span is known by the spans that cover all suggestions. -/
theorem commonSpan_congr (hss : ss ≠ []) (hts : ts ≠ [])
    (h : ∀ a : Span, (∀ s ∈ ss, a.Covers s.span) ↔ ∀ t ∈ ts, a.Covers t.span) :
    commonSpan ss = commonSpan ts := by
  have hiff : ∀ a : Span, a.Covers (commonSpan ss) ↔ a.Covers (commonSpan ts) := fun a => by
    rw [covers_commonSpan hss, covers_commonSpan hts, h]
  exact ((hiff _).mp (.refl _)).antisymm ((hiff _).mpr (.refl _))

theorem commonSpan_inside (hne : ss ≠ []) (h : ∀ s ∈ ss, s.span.Inside command) :
    (commonSpan ss).Inside command := by
  have hwhole : (Span.whole command).Covers (commonSpan ss) :=
    (covers_commonSpan hne).mpr fun s hs => (h s hs).covers_whole
  obtain ⟨s, hs⟩ := List.exists_mem_of_ne_nil ss hne
  have hcovers := commonSpan_covers hs
  exact ⟨hwhole.start_le, hcovers.start_le.trans ((h s hs).start_le_stop.trans hcovers.stop_le),
    hwhole.stop_le⟩

/-- Suggestions brought to a span: widened, the first of each text kept, and put in order. -/
def settled (command : Text) (span : Span) (ss : List Suggestion) : List Suggestion :=
  (distinct (ss.map (widened command span))).mergeSort fun a b => !b.text.precedes a.text

/-- Inside the command a list is created by bringing the suggestions to their common span. -/
theorem create_eq_settled (h : ∀ s ∈ ss, s.span.Inside command) :
    create command ss = .ok ⟨commonSpan ss, settled command (commonSpan ss) ss⟩ := by
  cases ss with
  | nil => simp [create, empty, commonSpan, settled, distinct]
  | cons s rest =>
    have hin := commonSpan_inside (List.cons_ne_nil s rest) h
    have hmap := mapM_widen hin h fun t ht => commonSpan_covers ht
    rw [commonSpan] at hmap
    rw [create, hmap]
    rfl

theorem mem_settled {s : Suggestion} (h : s ∈ settled command a ss) :
    ∃ t ∈ ss, t.widened command a = s :=
  List.mem_map.mp (mem_of_mem_distinct (List.mem_mergeSort.mp h))

theorem settled_ne_nil (command : Text) (a : Span) (h : ss ≠ []) : settled command a ss ≠ [] := by
  cases ss with
  | nil => contradiction
  | cons s rest =>
    have hlength : (settled command a (s :: rest)).length ≠ 0 := by
      simp [settled, List.length_mergeSort, distinct]
    exact fun hnil => hlength (by rw [hnil]; rfl)

/-- A search for one text finds the first suggestion that has it, whatever the order. -/
theorem find?_settled {p : Suggestion → Bool}
    (hp : ∀ s ∈ ss.map (widened command a), ∀ t ∈ ss.map (widened command a),
      s.text = t.text → p s = p t)
    (hone : ∀ s ∈ ss.map (widened command a), ∀ t ∈ ss.map (widened command a),
      p s = true → p t = true → s.text = t.text) :
    (settled command a ss).find? p = (ss.map (widened command a)).find? p := by
  rw [← find?_distinct hp]
  have hmem : ∀ {s}, s ∈ settled command a ss ↔ s ∈ distinct (ss.map (widened command a)) :=
    List.mem_mergeSort
  cases hfind : (distinct (ss.map (widened command a))).find? p with
  | none =>
    rw [List.find?_eq_none] at hfind ⊢
    exact fun s hs => hfind s (hmem.mp hs)
  | some s =>
    have hs := List.mem_of_find?_eq_some hfind
    have hps := List.find?_some hfind
    obtain ⟨t, ht⟩ := Option.isSome_iff_exists.mp
      (List.find?_isSome.mpr ⟨s, hmem.mpr hs, hps⟩)
    have htmem := hmem.mp (List.mem_of_find?_eq_some ht)
    have htext := hone t (mem_of_mem_distinct htmem) s (mem_of_mem_distinct hs)
      (List.find?_some ht) hps
    rw [ht, List.inj_on_of_nodup_map (nodup_distinct _) htmem hs htext]

/-- Bringing a group to its own span first changes nothing for a search in a wider span. -/
theorem find?_widened_settled (hb : ∀ s ∈ ss, a.Covers s.span) (hab : b.Covers a) (text : Text) :
    ((settled command a ss).map (widened command b)).find? (fun t => t.text = text) =
      (ss.map (widened command b)).find? fun t => t.text = text := by
  have hspan : ∀ s ∈ ss.map (widened command a), s.span = a := by
    intro s hs
    obtain ⟨t, -, rfl⟩ := List.mem_map.mp hs
    rfl
  have hsame : ∀ s ∈ ss.map (widened command a), ∀ t ∈ ss.map (widened command a),
      ((s.widened command b).text = (t.widened command b).text ↔ s.text = t.text) :=
    fun s hs t ht => text_widened_iff ((hspan s hs).trans (hspan t ht).symm)
  have hmap : ss.map (widened command b) =
      (ss.map (widened command a)).map (widened command b) := by
    rw [List.map_map]
    exact List.map_congr_left fun s hs => (widened_widened (hb s hs) hab).symm
  rw [hmap, List.find?_map, List.find?_map, find?_settled]
  · intro s hs t ht htext
    simp [(hsame s hs t ht).mpr htext]
  · intro s hs t ht hps hpt
    have hps : (s.widened command b).text = text := by simpa using hps
    have hpt : (t.widened command b).text = text := by simpa using hpt
    exact (hsame s hs t ht).mp (hps.trans hpt.symm)

/-- Bringing groups to their own spans first, and then all together, is bringing them together at
once. -/
theorem settled_flatMap {lists : List (List Suggestion)}
    (hb : ∀ l ∈ lists, ∀ s ∈ l, b.Covers s.span) :
    settled command b (lists.flatMap fun l => settled command (commonSpan l) l) =
      settled command b lists.flatten := by
  have hfind : ∀ text : Text,
      ((lists.flatMap fun l => settled command (commonSpan l) l).map (widened command b)).find?
        (fun t => t.text = text) =
      (lists.flatten.map (widened command b)).find? fun t => t.text = text := by
    intro text
    induction lists with
    | nil => rfl
    | cons l lists ih =>
      obtain ⟨hl, hlists⟩ := List.forall_mem_cons.mp hb
      have hgroup : ((settled command (commonSpan l) l).map (widened command b)).find?
          (fun t => t.text = text) = (l.map (widened command b)).find? fun t => t.text = text := by
        by_cases hne : l = []
        · subst hne
          simp [settled, distinct]
        · exact find?_widened_settled (fun s hs => commonSpan_covers hs)
            ((covers_commonSpan hne).mpr hl) text
      rw [List.flatMap_cons, List.flatten_cons, List.map_append, List.map_append,
        List.find?_append, List.find?_append, hgroup, ih hlists]
  refine mergeSort_eq_of_perm ?_ (nodup_distinct _)
  refine (List.perm_ext_iff_of_nodup (nodup_distinct _).of_map (nodup_distinct _).of_map).mpr
    fun s => ?_
  rw [mem_distinct_iff, mem_distinct_iff, hfind]

/-- What is created from a group of suggestions inside the command. -/
def created (command : Text) (ss : List Suggestion) : Suggestions :=
  ⟨commonSpan ss, settled command (commonSpan ss) ss⟩

theorem mapM_create {lists : List (List Suggestion)}
    (h : ∀ l ∈ lists, ∀ s ∈ l, s.span.Inside command) :
    lists.mapM (create command) = .ok (lists.map (created command)) :=
  mapM_eq_ok_map fun l hl => create_eq_settled (h l hl)

/-- Every suggestion of the created lists has the common span of a group that is not empty. -/
theorem mem_created {lists : List (List Suggestion)} {s : Suggestion}
    (h : s ∈ (lists.map (created command)).flatMap list) :
    ∃ l ∈ lists, l ≠ [] ∧ s.span = commonSpan l := by
  obtain ⟨part, hpart, hs⟩ := List.mem_flatMap.mp h
  obtain ⟨l, hl, rfl⟩ := List.mem_map.mp hpart
  obtain ⟨t, ht, rfl⟩ := mem_settled hs
  exact ⟨l, hl, List.ne_nil_of_mem ht, rfl⟩

/-- The created lists reach as far as the suggestions did. -/
theorem commonSpan_created (command : Text) (lists : List (List Suggestion)) :
    commonSpan ((lists.map (created command)).flatMap list) = commonSpan lists.flatten := by
  by_cases hnone : lists.flatten = []
  · have hnil : (lists.map (created command)).flatMap list = [] := by
      refine List.eq_nil_iff_forall_not_mem.mpr fun s hs => ?_
      obtain ⟨l, hl, hne, -⟩ := mem_created hs
      exact hne (List.flatten_eq_nil_iff.mp hnone l hl)
    rw [hnil, hnone]
  · have hsome : ∀ l ∈ lists, l ≠ [] →
        ∃ s ∈ (lists.map (created command)).flatMap list, s.span = commonSpan l := by
      intro l hl hne
      obtain ⟨s, hs⟩ := List.exists_mem_of_ne_nil _ (settled_ne_nil command (commonSpan l) hne)
      obtain ⟨t, -, rfl⟩ := mem_settled hs
      exact ⟨_, List.mem_flatMap.mpr ⟨_, List.mem_map_of_mem hl, hs⟩, rfl⟩
    obtain ⟨t, ht⟩ := List.exists_mem_of_ne_nil _ hnone
    obtain ⟨l, hl, ht⟩ := List.mem_flatten.mp ht
    obtain ⟨s, hs, -⟩ := hsome l hl (List.ne_nil_of_mem ht)
    refine commonSpan_congr (List.ne_nil_of_mem hs) hnone fun a => ⟨fun h t ht => ?_, fun h s hs => ?_⟩
    · obtain ⟨l, hl, ht⟩ := List.mem_flatten.mp ht
      obtain ⟨s, hs, hspan⟩ := hsome l hl (List.ne_nil_of_mem ht)
      exact (hspan ▸ h s hs).trans (commonSpan_covers ht)
    · obtain ⟨l, hl, hne, hspan⟩ := mem_created hs
      rw [hspan]
      exact (covers_commonSpan hne).mpr fun t ht => h t (List.mem_flatten.mpr ⟨l, hl, ht⟩)

/-- Merging lists that were created from groups of suggestions inside the command is creating one
list from all of them: the same span, and the same suggestions in the same order. -/
theorem merge_create (command : Text) (lists : List (List Suggestion))
    (h : ∀ l ∈ lists, ∀ s ∈ l, s.span.Inside command) :
    ∃ parts all, lists.mapM (create command) = .ok parts ∧ merge command parts = .ok all ∧
      create command lists.flatten = .ok all := by
  have hall : ∀ s ∈ lists.flatten, s.span.Inside command := by
    intro s hs
    obtain ⟨l, hl, hs⟩ := List.mem_flatten.mp hs
    exact h l hl s hs
  refine ⟨lists.map (created command), _, mapM_create h, ?_, create_eq_settled hall⟩
  match lists, h, hall with
  | [], _, _ => simp [merge, empty, commonSpan, settled, distinct]
  | [l], _, _ => simp [merge, created]
  | l :: l' :: rest, h, hall =>
    have hin : ∀ s ∈ ((l :: l' :: rest).map (created command)).flatMap list,
        s.span.Inside command := by
      intro s hs
      obtain ⟨l, hl, hne, hspan⟩ := mem_created hs
      exact hspan ▸ commonSpan_inside hne (h l hl)
    have hmerge : merge command ((l :: l' :: rest).map (created command)) =
        create command (((l :: l' :: rest).map (created command)).flatMap list) := rfl
    rw [hmerge, create_eq_settled hin, commonSpan_created, List.flatMap_map]
    have hcovers : ∀ g ∈ l :: l' :: rest, ∀ s ∈ g,
        (commonSpan (l :: l' :: rest).flatten).Covers s.span := fun g hg s hs =>
      commonSpan_covers (List.mem_flatten.mpr ⟨g, hg, hs⟩)
    exact congrArg (fun list => Except.ok (Suggestions.mk _ list)) (settled_flatMap hcovers)

/-- Both groups suggest `give`, the second for the second word only; one group is empty. -/
def errands : List (List Suggestion) :=
  [[.ofText ⟨0, 4⟩ (text "go give") (some (text "first")), .ofText ⟨0, 4⟩ (text "go Get") none], [],
    [.ofText ⟨3, 4⟩ (text "give") none, .ofInteger ⟨3, 4⟩ 7 none, .ofText ⟨3, 4⟩ (text "get") none]]

/-- The repeated text keeps the tooltip of the first group, and the number is still known. -/
theorem merge_create_errands :
    (∀ l ∈ errands, ∀ s ∈ l, s.span.Inside (text "go g")) ∧
    ∃ parts all, errands.mapM (create (text "go g")) = .ok parts ∧
      merge (text "go g") parts = .ok all ∧ create (text "go g") errands.flatten = .ok all ∧
      all = ⟨⟨0, 4⟩, [⟨⟨0, 4⟩, text "go 7", none, some 7⟩, ⟨⟨0, 4⟩, text "go Get", none, none⟩,
        ⟨⟨0, 4⟩, text "go get", none, none⟩,
        ⟨⟨0, 4⟩, text "go give", some (text "first"), none⟩]⟩ := by
  have hin : ∀ l ∈ errands, ∀ s ∈ l, s.span.Inside (text "go g") := by
    intro l hl s hs
    have hspan : ∀ s ∈ errands.flatten, 0 ≤ s.span.start ∧ s.span.start ≤ s.span.stop ∧
        s.span.stop ≤ ((text "go g").length : Int) := by decide
    obtain ⟨h0, h1, h2⟩ := hspan s (List.mem_flatten.mpr ⟨l, hl, hs⟩)
    exact ⟨h0, h1, h2⟩
  obtain ⟨parts, all, hparts, hmerge, hcreate⟩ := merge_create (text "go g") errands hin
  have heval : create (text "go g") errands.flatten = .ok ⟨⟨0, 4⟩,
      [⟨⟨0, 4⟩, text "go 7", none, some 7⟩, ⟨⟨0, 4⟩, text "go Get", none, none⟩,
        ⟨⟨0, 4⟩, text "go get", none, none⟩,
        ⟨⟨0, 4⟩, text "go give", some (text "first"), none⟩]⟩ := by
    cbv
  exact ⟨hin, parts, all, hparts, hmerge, hcreate, Except.ok.inj (hcreate.symm.trans heval)⟩

end Suggestions

end CommandTree
