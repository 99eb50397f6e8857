import CommandTree.Proofs.Translation
import CommandTree.Proofs.Widening
import CommandTree.Proofs.WordCompletion

/-!
Gathering suggestions from several sources. The order of the lists does not decide which texts are
suggested, nor in which order these stand. Of the children of a node only arguments can fail to make
suggestions, so the order of arguments decides which failure is reported, and nothing else does.
-/

namespace CommandTree

theorem Agree.bind {α β α' β' : Type} {R : α → β → Prop} {R' : α' → β' → Prop}
    {x : Except Fault α} {y : Except Fault β} {f : α → Except Fault α'} {g : β → Except Fault β'}
    (h : Agree R x y) (hfg : ∀ a b, R a b → Agree R' (f a) (g b)) :
    Agree R' (x.bind f) (y.bind g) := by
  cases h with
  | error f => exact .error f
  | ok related => exact hfg _ _ related

/-- In another order the work has the same results in another order, if the failures agree. -/
theorem mapM_of_perm {α β : Type} {f : α → Except Fault β} {as as' : List α} (h : as.Perm as')
    (hfails : ∀ e, as.mapM f = .error e → as'.mapM f = .error e) :
    Agree List.Perm (as.mapM f) (as'.mapM f) := by
  cases has : as.mapM f with
  | error e => rw [hfails e has]; exact .error e
  | ok bs =>
    obtain ⟨bs', hbs', hperm⟩ := List.perm_comp_forall₂ h.symm (mapM_eq_ok_iff.mp has)
    rw [mapM_eq_ok_iff.mpr hbs']
    exact .ok hperm.symm

/-! Suggestions -/

namespace Suggestion

theorem widen_error {command : Text} {span : Span} {s : Suggestion} {f : Fault}
    (h : s.widen command span = .error f) : f = .outOfRange := by
  have hcut : ∀ start count g, command.cut start count = .error g → g = .outOfRange := by
    intro start count g hg
    unfold Text.cut at hg
    split at hg <;> simp_all
  unfold widen at h
  simp only [bind, Except.bind] at h
  grind

/-- Widening can fail in one way only, so the order of suggestions does not decide how it fails. -/
theorem mapM_widen_of_perm {command : Text} {span : Span} {ss ts : List Suggestion}
    (h : ss.Perm ts) :
    Agree List.Perm (ss.mapM (widen command span)) (ts.mapM (widen command span)) := by
  refine mapM_of_perm h fun e hss => ?_
  obtain ⟨s, hs, he⟩ := mem_of_mapM_error hss
  cases hts : ts.mapM (widen command span) with
  | error e' =>
    obtain ⟨t, -, he'⟩ := mem_of_mapM_error hts
    rw [widen_error he, widen_error he']
  | ok us =>
    obtain ⟨u, -, hu⟩ := exists_partner (mapM_eq_ok_iff.mp hts) (h.mem_iff.mp hs)
    rw [he] at hu
    cases hu

theorem text_mem_distinct {ss : List Suggestion} {t : Text} :
    t ∈ (distinct ss).map text ↔ t ∈ ss.map text := by
  simp only [List.mem_map]
  constructor
  · rintro ⟨s, hs, rfl⟩
    exact ⟨s, mem_of_mem_distinct hs, rfl⟩
  · rintro ⟨s, hs, rfl⟩
    have hsome : ((distinct ss).find? fun t => t.text = s.text).isSome := by
      rw [find?_distinct fun t _ u _ htext => by rw [htext]]
      exact List.find?_isSome.mpr ⟨s, hs, by simp⟩
    obtain ⟨t, ht⟩ := Option.isSome_iff_exists.mp hsome
    exact ⟨t, List.mem_of_find?_eq_some ht, by simpa using List.find?_some ht⟩

/-- Suggestions with the same texts come to the same list of texts. -/
theorem texts_sorted_congr {ss ts : List Suggestion} (h : ∀ t, t ∈ ss.map text ↔ t ∈ ts.map text) :
    ((distinct ss).mergeSort fun a b => !b.text.precedes a.text).map text =
      ((distinct ts).mergeSort fun a b => !b.text.precedes a.text).map text := by
  have hsorted : ∀ us : List Suggestion,
      ((us.mergeSort fun a b => !b.text.precedes a.text).map text).Pairwise
        fun a b => b.precedes a = false := fun us => List.pairwise_map.mpr (pairwise_sorted us)
  have hperm : ((distinct ss).map text).Perm ((distinct ts).map text) :=
    (List.perm_ext_iff_of_nodup (nodup_distinct ss) (nodup_distinct ts)).mpr fun t => by
      rw [text_mem_distinct, text_mem_distinct, h]
  refine List.Perm.eq_of_pairwise (fun a b _ _ hab hba => Text.eq_of_not_precedes hba hab)
    (hsorted _) (hsorted _) ?_
  exact (((List.mergeSort_perm ..).map text).trans hperm).trans
    ((List.mergeSort_perm ..).map text).symm

end Suggestion

namespace Suggestions

/-- Two lists of suggestions are for the same span and show the same texts in the same order. -/
structure SameTexts (a b : Suggestions) : Prop where
  span : a.span = b.span
  texts : a.list.map Suggestion.text = b.list.map Suggestion.text

theorem SameTexts.refl (a : Suggestions) : a.SameTexts a := ⟨rfl, rfl⟩

variable {command : Text}

/-- The order of suggestions does not decide what is created from them. -/
theorem create_of_perm {ss ts : List Suggestion} (h : ss.Perm ts) :
    Agree SameTexts (create command ss) (create command ts) := by
  match ss, ts, h with
  | [], _, h => obtain rfl := h.nil_eq; exact .ok (SameTexts.refl _)
  | _, [], h => obtain rfl := h.eq_nil; exact .ok (SameTexts.refl _)
  | s :: ss, t :: ts, h =>
    have hspan : Suggestion.hull s ss = Suggestion.hull t ts :=
      commonSpan_congr (List.cons_ne_nil s ss) (List.cons_ne_nil t ts) fun a =>
        forall_congr' fun u => imp_congr_left h.mem_iff
    have hwiden : Agree List.Perm ((s :: ss).mapM (Suggestion.widen command (Suggestion.hull s ss)))
        ((t :: ts).mapM (Suggestion.widen command (Suggestion.hull s ss))) :=
      Suggestion.mapM_widen_of_perm h
    rw [create, create, ← hspan]
    generalize (s :: ss).mapM (Suggestion.widen command (Suggestion.hull s ss)) = x,
      (t :: ts).mapM (Suggestion.widen command (Suggestion.hull s ss)) = y at hwiden ⊢
    cases hwiden with
    | error f => exact .error f
    | ok hperm => exact .ok ⟨rfl, Suggestion.texts_sorted_congr fun u => (hperm.map _).mem_iff⟩

/-- Neither does the order of the lists that are merged. -/
theorem merge_of_perm {lists lists' : List Suggestions} (h : lists.Perm lists') :
    Agree SameTexts (merge command lists) (merge command lists') := by
  match lists, lists', h with
  | [], _, h => obtain rfl := h.nil_eq; exact .ok (SameTexts.refl _)
  | [s], _, h => obtain rfl := h.singleton_eq; exact .ok (SameTexts.refl s)
  | _, [], h => obtain rfl := h.eq_nil; exact .ok (SameTexts.refl _)
  | _, [s], h => obtain rfl := h.eq_singleton; exact .ok (SameTexts.refl s)
  | s :: t :: rest, s' :: t' :: rest', h => exact create_of_perm (h.flatMap_right list)

end Suggestions

/-! The children of a node -/

namespace Grammar

variable {S C M : Type} {source : S} {d : Draft}

/-- Where every child answers whether the source may use it, those that do not turn it down are
asked. -/
theorem invited_ok {cs : List (Tree S C M)}
    (h : ∀ c ∈ cs, ∃ admitted, c.admits source = .ok admitted) (d : Draft) :
    invited source (.ok d) cs = .ok ((cs.filter (welcomes source)).map (·, d)) := by
  rcases invited_eq source d cs with ⟨f, -, c, hc, hf⟩ | hok
  · obtain ⟨admitted, hadmitted⟩ := h c hc
    rw [hf] at hadmitted
    cases hadmitted
  · exact hok

/-- A place outside the input shows as soon as one child is to be asked. -/
theorem invited_error {cs : List (Tree S C M)}
    (h : ∀ c ∈ cs, ∃ admitted, c.admits source = .ok admitted) (f : Fault) :
    invited source (.error f) cs =
      if (cs.filter (welcomes source)).isEmpty then .ok [] else .error f := by
  induction cs with
  | nil => rfl
  | cons c cs ih =>
    obtain ⟨⟨admitted, hc⟩, hcs⟩ := List.forall_mem_cons.mp h
    cases admitted <;> simp [invited, hc, welcomes, ih hcs]

theorem entries_ofInput {input : Text} {start : Int} (h : Draft.ofInput input start = .ok d) :
    d.entries = [] := by
  unfold Draft.ofInput Draft.openAt at h
  split_ifs at h
  cases h
  rfl

/-- Only an argument can fail to make suggestions. The others suggest for the span of the draft. -/
theorem suggest_of_not_argument {c : Tree S C M} (h : c.isArgument = false) (context : Context S)
    (hd : d.entries = []) :
    ∃ all, c.suggest context d = .ok all ∧ ∀ s ∈ all.list, s.span = d.span := by
  have hnone : ∀ s ∈ Suggestions.empty.list, s.span = d.span := fun s hs =>
    absurd hs List.not_mem_nil
  unfold Tree.suggest
  cases hk : c.traits.kind with
  | root => exact ⟨_, rfl, hnone⟩
  | literal word =>
    dsimp only
    split_ifs
    · rw [Draft.suggest]
      split_ifs
      · exact ⟨_, by rw [Draft.build, hd]; rfl, hnone⟩
      · refine ⟨_, by rw [Draft.build, hd]; exact Suggestions.create_singleton .., fun s hs => ?_⟩
        rw [List.mem_singleton.mp hs, Suggestion.ofText]
    · exact ⟨_, rfl, hnone⟩
  | argument name type provider =>
    rw [Tree.isArgument, hk] at h
    cases h

theorem offer_of_not_argument {c : Tree S C M} (h : c.isArgument = false) (context : Context S)
    (hd : d.entries = []) : ∃ s, offer context c d = .ok s := by
  obtain ⟨all, hall, -⟩ := suggest_of_not_argument h context hd
  exact ⟨all, by rw [offer, hall]⟩

theorem offers_eq_mapM (context : Context S) (cs : List (Tree S C M)) (d : Draft) :
    offers context (cs.map (·, d)) = cs.mapM fun c => offer context c d := by
  induction cs with
  | nil => rfl
  | cons c cs ih =>
    rw [List.map_cons, offers, ih, List.mapM_cons]
    cases offer context c d with
    | error f => rfl
    | ok s => cases cs.mapM fun c => offer context c d <;> rfl

/-- Children in another order make the same lists in another order, if the arguments among them follow
one another as before. -/
theorem offers_of_perm {cs cs' : List (Tree S C M)} (h : cs.Perm cs')
    (harguments : cs.filter Tree.isArgument = cs'.filter Tree.isArgument) (context : Context S)
    (hd : d.entries = []) :
    Agree List.Perm (offers context (cs.map (·, d))) (offers context (cs'.map (·, d))) := by
  have hothers : ∀ c : Tree S C M, c.isArgument = false → ∃ s, offer context c d = .ok s :=
    fun c hc => offer_of_not_argument hc context hd
  rw [offers_eq_mapM, offers_eq_mapM]
  refine mapM_of_perm h fun f hf => ?_
  rwa [mapM_error_iff_filter fun c _ => hothers c, ← harguments,
    ← mapM_error_iff_filter fun c _ => hothers c]

end Grammar

end CommandTree
