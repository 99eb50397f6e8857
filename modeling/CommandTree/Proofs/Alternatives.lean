import CommandTree.Proofs.Exploration
import CommandTree.Proofs.Siblings
import CommandTree.Usage
import Mathlib

/-!
Compact usage lines of nodes that a source may leave by several children. What follows such a node is meant
to be shown as one group of the different texts of these children. Main statement: the line shows the group
where no two children have the same text. Where all have the same, this text stands in the tokens for what
is optional twice, and where only some do, the choice repeats theirs.
-/

namespace CommandTree

open scoped List

section Distinct

variable {α : Type} [BEq α] [LawfulBEq α] {as : List α} {a : α}

theorem eraseDups_eq_singleton_iff : as.eraseDups = [a] ↔ as ≠ [] ∧ ∀ b ∈ as, b = a := by
  constructor
  · intro h
    refine ⟨?_, fun b hb => ?_⟩
    · rintro rfl
      exact absurd h (by simp)
    · have hmem : b ∈ as.eraseDups := List.mem_eraseDups.mpr hb
      simpa [h] using hmem
  · rintro ⟨hne, hall⟩
    obtain ⟨b, bs, rfl⟩ := List.exists_cons_of_ne_nil hne
    obtain ⟨rfl, hbs⟩ := List.forall_mem_cons.mp hall
    have hnone : (bs.filter fun c => !c == b) = [] := by simpa [List.filter_eq_nil_iff] using hbs
    rw [List.eraseDups_cons, hnone, List.eraseDups_nil]

omit [LawfulBEq α] in
theorem eraseDups_sublist (as : List α) : as.eraseDups <+ as := by
  match as with
  | [] => simp
  | a :: as =>
    rw [List.eraseDups_cons]
    exact ((eraseDups_sublist _).trans List.filter_sublist).cons_cons a
termination_by as.length
decreasing_by exact Nat.lt_succ_of_le (List.length_filter_le _ _)

theorem nodup_eraseDups (as : List α) : as.eraseDups.Nodup := by
  match as with
  | [] => simp
  | a :: as =>
    rw [List.eraseDups_cons, List.nodup_cons]
    exact ⟨by simp, nodup_eraseDups _⟩
termination_by as.length
decreasing_by exact Nat.lt_succ_of_le (List.length_filter_le _ _)

theorem eraseDups_of_nodup (h : as.Nodup) : as.eraseDups = as := by
  induction as with
  | nil => rfl
  | cons a as ih =>
    obtain ⟨ha, has⟩ := List.nodup_cons.mp h
    have hall : (as.filter fun b => !b == a) = as := by
      rw [List.filter_eq_self]
      intro b hb
      simpa using fun hba : b = a => ha (hba ▸ hb)
    rw [List.eraseDups_cons, hall, ih has]

end Distinct

theorem length_intercalate (sep : Text) (ts : List Text) :
    (sep.intercalate ts).length = (ts.map List.length).sum + sep.length * (ts.length - 1) := by
  induction ts with
  | nil => simp [List.intercalate]
  | cons t ts ih =>
    cases ts with
    | nil => simp [List.intercalate]
    | cons s ts =>
      have hcount : (t :: s :: ts).length - 1 = ((s :: ts).length - 1) + 1 := by simp
      have hsum : ((t :: s :: ts).map List.length).sum =
          t.length + ((s :: ts).map List.length).sum := List.sum_cons
      rw [List.intercalate_cons_cons, List.length_append, List.length_append, ih, hcount,
        Nat.mul_succ, hsum]
      omega

/-- A text that is left out is missed in what is written, unless it is empty. -/
theorem eq_of_intercalate_eq {sep : Text} {ss ts : List Text} (hsub : ss <+ ts)
    (hmem : ∀ t ∈ ts, t ∈ ss) (hempty : ts.count [] ≤ 1)
    (h : sep.intercalate ss = sep.intercalate ts) : ss = ts := by
  obtain ⟨missing, hperm⟩ := hsub.exists_perm_append
  have hnil : missing = [] := by
    rw [List.eq_nil_iff_forall_not_mem]
    intro t ht
    have hlength := congrArg List.length h
    have hsum : (ts.map List.length).sum = (ss.map List.length).sum + (missing.map List.length).sum := by
      rw [(hperm.map List.length).sum_eq, List.map_append, List.sum_append]
    have hseps : sep.length * (ss.length - 1) ≤ sep.length * (ts.length - 1) :=
      Nat.mul_le_mul_left _ (Nat.sub_le_sub_right hsub.length_le 1)
    have hle : t.length ≤ (missing.map List.length).sum :=
      List.single_le_sum (by simp) _ (List.mem_map_of_mem ht)
    rw [length_intercalate, length_intercalate, hsum] at hlength
    obtain rfl : t = [] := List.eq_nil_of_length_eq_zero (by omega)
    have htwice : ts.count [] = ss.count [] + missing.count [] := by
      rw [hperm.count_eq, List.count_append]
    have hkept : 0 < ss.count [] :=
      List.count_pos_iff.mpr (hmem [] (hperm.mem_iff.mpr (List.mem_append_right _ ht)))
    have hgone : 0 < missing.count [] := List.count_pos_iff.mpr ht
    omega
  exact hsub.eq_of_length (by rw [hperm.length_eq, hnil, List.append_nil])

namespace UsageFormat

variable {u : UsageFormat} {isOptional : Bool} {ts : List Text} {t : Text}

/-- The different texts of a list, each at its first place, as one group. It is optional as a whole, or
else required where there are several. -/
def group (u : UsageFormat) (isOptional : Bool) (ts : List Text) : Text :=
  if isOptional || 1 < ts.eraseDups.length then u.choice isOptional ts.eraseDups
  else u.alternative.intercalate ts.eraseDups

/-- What is shown behind a node for the texts of its children. -/
def shown (u : UsageFormat) (isOptional : Bool) (ts : List Text) : Text :=
  match (ts.map (u.wrap isOptional)).eraseDups with
  | [same] => u.wrap isOptional same
  | _ => u.choice isOptional ts

theorem wrap_injective (u : UsageFormat) (isOptional : Bool) :
    Function.Injective (u.wrap isOptional) := by
  intro s t h
  cases isOptional <;> simpa [wrap] using h

theorem wrap_wrap_iff :
    u.wrap isOptional (u.wrap isOptional t) = u.wrap isOptional t ↔
      (isOptional = true → u.optionalOpen = [] ∧ u.optionalClose = []) := by
  cases isOptional with
  | false => simp [wrap]
  | true =>
    simp only [wrap, if_true, forall_const]
    constructor
    · intro h
      have hlength := congrArg List.length h
      simp only [List.length_append] at hlength
      exact ⟨List.eq_nil_of_length_eq_zero (by omega), List.eq_nil_of_length_eq_zero (by omega)⟩
    · rintro ⟨hopen, hclose⟩
      simp [hopen, hclose]

theorem choice_eq_iff {ss : List Text} :
    u.choice isOptional ss = u.choice isOptional ts ↔
      u.alternative.intercalate ss = u.alternative.intercalate ts := by
  cases isOptional <;> simp [choice]

theorem shown_same (hne : ts ≠ []) (hall : ∀ s ∈ ts, s = t) :
    u.shown isOptional ts = u.wrap isOptional (u.wrap isOptional t) := by
  have hone : (ts.map (u.wrap isOptional)).eraseDups = [u.wrap isOptional t] := by
    rw [eraseDups_eq_singleton_iff]
    refine ⟨by simpa using hne, fun w hw => ?_⟩
    obtain ⟨s, hs, rfl⟩ := List.mem_map.mp hw
    rw [hall s hs]
  simp [shown, hone]

theorem shown_differ {s : Text} (hs : s ∈ ts) (ht : t ∈ ts) (hne : s ≠ t) :
    u.shown isOptional ts = u.choice isOptional ts := by
  rw [shown]
  split
  · rename_i same hone
    have hall := (eraseDups_eq_singleton_iff.mp hone).2
    have heq : u.wrap isOptional s = u.wrap isOptional t :=
      (hall _ (List.mem_map_of_mem hs)).trans (hall _ (List.mem_map_of_mem ht)).symm
    exact absurd (u.wrap_injective isOptional heq) hne
  · rfl

theorem group_same (hne : ts ≠ []) (hall : ∀ s ∈ ts, s = t) :
    u.group isOptional ts = u.wrap isOptional t := by
  rw [group, eraseDups_eq_singleton_iff.mpr ⟨hne, hall⟩]
  cases isOptional <;> simp [choice, wrap, List.intercalate]

theorem group_differ {s : Text} (hs : s ∈ ts) (ht : t ∈ ts) (hne : s ≠ t) :
    u.group isOptional ts = u.choice isOptional ts.eraseDups := by
  have hmany : 1 < ts.eraseDups.length := by
    by_contra hfew
    have hpos : 0 < ts.eraseDups.length := List.length_pos_of_mem (List.mem_eraseDups.mpr hs)
    obtain ⟨a, ha⟩ := List.length_eq_one_iff.mp (show ts.eraseDups.length = 1 by omega)
    obtain ⟨-, hall⟩ := eraseDups_eq_singleton_iff.mp ha
    exact hne ((hall s hs).trans (hall t ht).symm)
  simp [group, hmany]

/-- This is the group exactly where no two of the texts are the same, or where all are and there are no
tokens that could stand around them twice. -/
theorem shown_eq_group_iff (hmany : 1 < ts.length) (hempty : ts.count [] ≤ 1) :
    u.shown isOptional ts = u.group isOptional ts ↔
      ts.Nodup ∨ (∀ s ∈ ts, ∀ t ∈ ts, s = t) ∧
        (isOptional = true → u.optionalOpen = [] ∧ u.optionalClose = []) := by
  obtain ⟨t, hfirst⟩ := List.exists_mem_of_length_pos (Nat.zero_lt_of_lt hmany)
  by_cases hsame : ∀ s ∈ ts, s = t
  · have hne : ts ≠ [] := List.ne_nil_of_mem hfirst
    have hpairs : ∀ s ∈ ts, ∀ t ∈ ts, s = t := fun s hs t ht => (hsame s hs).trans (hsame t ht).symm
    have hdup : ¬ ts.Nodup := fun h => by
      have hone := eraseDups_eq_singleton_iff.mpr ⟨hne, hsame⟩
      rw [eraseDups_of_nodup h] at hone
      simp [hone] at hmany
    rw [shown_same hne hsame, group_same hne hsame, wrap_wrap_iff, or_iff_right hdup,
      and_iff_right hpairs]
  · push Not at hsame
    obtain ⟨s, hs, hst⟩ := hsame
    have hdiffer : ¬ ∀ s ∈ ts, ∀ t ∈ ts, s = t := fun h => hst (h s hs t hfirst)
    rw [shown_differ hs hfirst hst, group_differ hs hfirst hst, choice_eq_iff]
    constructor
    · intro h
      have hkept := eq_of_intercalate_eq (eraseDups_sublist ts)
        (fun t ht => List.mem_eraseDups.mpr ht) hempty h.symm
      exact .inl (hkept ▸ nodup_eraseDups ts)
    · rintro (h | ⟨h, -⟩)
      · rw [eraseDups_of_nodup h]
      · exact absurd h hdiffer

end UsageFormat

namespace Tree

variable {S C M : Type}

/-- The children that a source may use. -/
def usableBy (t : Tree S C M) (source : S) : List (Tree S C M) :=
  t.children.filter fun c => c.admits source = .ok true

/-- The texts of these children. -/
def ways (t : Tree S C M) (source : S) : List Text := (t.usableBy source).map usage

/-- The node does not redirect, and a source may leave it by several children. As always, these are
words and arguments, and no two of them have the same name. -/
structure Branches (t : Tree S C M) (source : S) : Prop where
  direct : t.redirect = none
  names : (t.children.map name).Nodup
  noRoot : ∀ c ∈ t.children, c.isRoot = false
  several : 1 < (t.usableBy source).length

/-- Only a word can have an empty text, and only one of the children is the empty word. -/
theorem Branches.count_nil {t : Tree S C M} {source : S} (h : t.Branches source) :
    (t.ways source).count [] ≤ 1 := by
  have hname : ∀ c ∈ t.children, c.usage = [] → c.name = [] := by
    intro c hc husage
    have hroot := h.noRoot c hc
    unfold isRoot at hroot
    unfold usage tag at husage
    unfold name tag
    cases hk : c.traits.kind with
    | root => simp [hk, Kind.isRoot] at hroot
    | literal word => simpa [hk, Kind.tag, Tag.usage, Tag.name] using husage
    | argument arg type provider =>
      have hopen : text "<" ≠ [] := by decide
      simp [hk, Kind.tag, Tag.usage, hopen] at husage
  calc (t.ways source).count []
      ≤ (t.children.map usage).count [] := (List.filter_sublist.map usage).count_le []
    _ = t.children.countP fun c => c.usage == [] := List.countP_map
    _ ≤ t.children.countP fun c => c.name == [] :=
        List.countP_mono_left fun c hc h => by simpa using hname c hc (by simpa using h)
    _ = (t.children.map name).count [] := by rw [List.count, List.countP_map]; rfl
    _ ≤ 1 := List.nodup_iff_count_le_one.mp h.names []

end Tree

namespace Grammar

variable {S C M : Type} {g : Grammar S C M} {source : S} {u : UsageFormat}

theorem usable_eq_ok {cs ds : List (Tree S C M)} (h : usable source cs = .ok ds) :
    ds = cs.filter fun c => c.admits source = .ok true := by
  induction cs generalizing ds with
  | nil => exact (Except.ok.inj h).symm
  | cons c cs ih =>
    rw [usable] at h
    split at h
    · cases h
    · rename_i hadmits
      obtain ⟨rest, hrest, rfl⟩ := map_eq_ok_iff.mp h
      rw [List.filter_cons_of_pos (by simpa using hadmits), ih hrest]
    · rename_i hrefused
      rw [List.filter_cons_of_neg (by simp [hrefused]), ih h]

theorem usable_eq_error {cs : List (Tree S C M)} {f : Fault} (h : usable source cs = .error f) :
    ∃ c ∈ cs, c.admits source = .error f := by
  induction cs with
  | nil => cases h
  | cons c cs ih =>
    rw [usable] at h
    split at h
    · rename_i f' hfails
      obtain rfl := Except.error.inj h
      exact ⟨c, List.mem_cons_self, hfails⟩
    · exact (ih (map_eq_error_iff.mp h)).imp fun d hd => ⟨List.mem_cons_of_mem c hd.1, hd.2⟩
    · exact (ih h).imp fun d hd => ⟨List.mem_cons_of_mem c hd.1, hd.2⟩

/-- A compact line fails only where a requirement does. -/
theorem brief_eq_error {t : Tree S C M} {isOptional : Bool} {f : Fault}
    (h : g.brief u source isOptional t = .error f) : ∃ v, t.Has v ∧ v.admits source = .error f := by
  induction t generalizing isOptional with
  | node id traits cs ih =>
    have hchild : ∀ c ∈ cs, (Tree.node id traits cs).Has c := fun c hc => .child .top hc
    have honly : ∀ ds ⊆ cs, g.briefOnly u source ds = .error f →
        ∃ c ∈ cs, ∃ v, c.Has v ∧ v.admits source = .error f := by
      intro ds hds hfail
      induction ds with
      | nil => cases hfail
      | cons d ds ihds =>
        rw [briefOnly] at hfail
        split at hfail
        · rename_i f' hd
          obtain rfl := Except.error.inj hfail
          exact ⟨d, hds List.mem_cons_self, d, .top, hd⟩
        · exact ⟨d, hds List.mem_cons_self, ih d (hds List.mem_cons_self) hfail⟩
        · exact ihds (fun c hc => hds (List.mem_cons_of_mem d hc)) hfail
    rw [brief] at h
    dsimp only at h
    split at h
    · cases h
    · split at h
      · rename_i f' hfails
        obtain rfl := Except.error.inj h
        obtain ⟨c, hc, hcf⟩ := usable_eq_error hfails
        exact ⟨c, hchild c hc, hcf⟩
      · cases h
      · split_ifs at h
        obtain ⟨c, hc, v, hv, hfails⟩ := honly cs (List.Subset.refl cs) (map_eq_error_iff.mp h)
        exact ⟨v, (hchild c hc).trans hv, hfails⟩
      · split at h <;> cases h

/-- The line of a node that the source may leave by several children. -/
theorem brief_several {t : Tree S C M} {isOptional : Bool} {line : Text} (ht : t.Branches source)
    (h : g.brief u source isOptional t = .ok line) :
    line = beside (u.wrap isOptional t.usage) (u.shown t.command.isSome (t.ways source)) := by
  obtain ⟨id, traits, cs⟩ := t
  have hmany := ht.several
  rw [brief] at h
  dsimp only at h
  rw [ht.direct] at h
  cases hcs : usable source cs with
  | error f => simp [hcs] at h
  | ok several =>
    obtain rfl : several = (Tree.node id traits cs).usableBy source := usable_eq_ok hcs
    match hsome : (Tree.node id traits cs).usableBy source with
    | [] => simp [hsome] at hmany
    | [only] => simp [hsome] at hmany
    | c :: d :: more =>
      simp only [hcs, hsome] at h
      rw [UsageFormat.shown, Tree.ways, hsome, List.map_map, Function.comp_def]
      generalize ((c :: d :: more).map fun e =>
        u.wrap (Tree.node id traits cs).command.isSome e.usage).eraseDups = distinct at h ⊢
      match distinct with
      | [] => exact (Except.ok.inj h).symm
      | [same] => exact (Except.ok.inj h).symm
      | a :: b :: rest => exact (Except.ok.inj h).symm

/-- The nodes that are listed with a compact line, and their lines. -/
theorem briefAll_eq_ok {isOptional : Bool} {cs : List (Tree S C M)}
    {listed : List (Tree S C M × Text)} (h : g.briefAll u source isOptional cs = .ok listed) :
    listed.map Prod.fst = cs.filter (fun c => c.admits source = .ok true) ∧
      ∀ x ∈ listed, g.brief u source isOptional x.1 = .ok x.2 := by
  induction cs generalizing listed with
  | nil =>
    obtain rfl := Except.ok.inj h
    simp
  | cons c cs ih =>
    rw [briefAll] at h
    split at h
    · cases h
    · rename_i hrefused
      rw [List.filter_cons_of_neg (by simp [hrefused])]
      exact ih h
    · rename_i hadmits
      split at h
      · cases h
      · rename_i line hline
        obtain ⟨rest, hrest, rfl⟩ := map_eq_ok_iff.mp h
        obtain ⟨hfst, hsnd⟩ := ih hrest
        rw [List.filter_cons_of_pos (by simpa using hadmits), List.map_cons, hfst]
        exact ⟨rfl, List.forall_mem_cons.mpr ⟨hline, hsnd⟩⟩

theorem briefAll_eq_error {isOptional : Bool} {cs : List (Tree S C M)} {f : Fault}
    (h : g.briefAll u source isOptional cs = .error f) :
    ∃ c ∈ cs, ∃ v, c.Has v ∧ v.admits source = .error f := by
  induction cs with
  | nil => cases h
  | cons c cs ih =>
    have hrest : g.briefAll u source isOptional cs = .error f →
        ∃ d ∈ c :: cs, ∃ v, d.Has v ∧ v.admits source = .error f := fun hfail =>
      (ih hfail).imp fun d hd => ⟨List.mem_cons_of_mem c hd.1, hd.2⟩
    rw [briefAll] at h
    split at h
    · rename_i f' hfails
      obtain rfl := Except.error.inj h
      exact ⟨c, List.mem_cons_self, c, .top, hfails⟩
    · exact hrest h
    · split at h
      · rename_i f' hfails
        obtain rfl := Except.error.inj h
        exact ⟨c, List.mem_cons_self, brief_eq_error hfails⟩
      · exact hrest (map_eq_error_iff.mp h)

/-- Compact lines fail only where a requirement does. Otherwise there is one for each child that the
source may use. Where the source may leave this child by several others, the line is made up of its own
text, a separator and what is shown for the others: the text that all of them have, put into optional tokens
twice if the child may end the line, or else a choice of all their texts. That is the group of the different
texts exactly if no two are the same, or if all are and no tokens stand around them twice. -/
theorem smartUsage_of_several (g : Grammar S C M) (u : UsageFormat) (p : Tree S C M) (source : S) :
    (∀ f, g.smartUsage u p source = .error f → ∃ t, p.Has t ∧ t.admits source = .error f) ∧
    ∀ listed, g.smartUsage u p source = .ok listed →
      listed.map Prod.fst = p.usableBy source ∧
      ∀ c line, (c, line) ∈ listed → c.Branches source →
        ∃ rest, line = beside (u.wrap p.command.isSome c.usage) rest ∧
          (∀ t, (∀ s ∈ c.ways source, s = t) →
            rest = u.wrap c.command.isSome (u.wrap c.command.isSome t)) ∧
          ((∃ s ∈ c.ways source, ∃ t ∈ c.ways source, s ≠ t) →
            rest = u.choice c.command.isSome (c.ways source)) ∧
          (rest = u.group c.command.isSome (c.ways source) ↔
            (c.ways source).Nodup ∨ (∀ s ∈ c.ways source, ∀ t ∈ c.ways source, s = t) ∧
              (c.command.isSome = true → u.optionalOpen = [] ∧ u.optionalClose = [])) := by
  refine ⟨fun f hf => ?_, fun listed hlisted => ?_⟩
  · obtain ⟨c, hc, t, ht, hfails⟩ := briefAll_eq_error hf
    exact ⟨t, (Tree.Has.child .top hc).trans ht, hfails⟩
  · obtain ⟨hfst, hlines⟩ := briefAll_eq_ok hlisted
    refine ⟨hfst, fun c line hmem hc => ?_⟩
    have hmany : 1 < (c.ways source).length := by simpa [Tree.ways] using hc.several
    have hne : c.ways source ≠ [] := List.ne_nil_of_length_pos (Nat.zero_lt_of_lt hmany)
    refine ⟨_, brief_several hc (hlines _ hmem), fun t hall => UsageFormat.shown_same hne hall, ?_,
      UsageFormat.shown_eq_group_iff hmany hc.count_nil⟩
    rintro ⟨s, hs, t, ht, hst⟩
    exact UsageFormat.shown_differ hs ht hst

namespace Timer

def word (i : Nat) (w : String) (command : Option Unit) (cs : List (Tree Unit Unit Unit)) :
    Tree Unit Unit Unit :=
  .node [i] ⟨.literal (text w), command, none, none, none, none, false⟩ cs

def number (i : Nat) : Tree Unit Unit Unit :=
  .node [i] (.ofKind (.argument (text "n") (BuiltIn.anyNumber .integer).toArgumentType none)) []

def turn : Tree Unit Unit Unit := word 1 "turn" none [word 2 "on" (some ()) [], word 3 "off" (some ()) []]

def wait : Tree Unit Unit Unit := word 4 "wait" (some ()) [word 5 "<n>" none [], number 6]

def step : Tree Unit Unit Unit :=
  word 7 "step" none [word 8 "<n>" none [], number 9, word 10 "off" none []]

end Timer

/-- A kitchen timer. Waiting and steps take a number; the word that is written like it helps out. -/
def timer : Grammar Unit Unit Unit :=
  ⟨.node [0] (.ofKind .root) [Timer.turn, Timer.wait, Timer.step], .bare⟩

theorem timer_branches : ∀ c ∈ timer.root.children, c.Branches () := fun c hc =>
  ⟨(by decide +kernel : ∀ c ∈ timer.root.children, c.redirect = none) c hc,
    (by decide +kernel : ∀ c ∈ timer.root.children, (c.children.map Tree.name).Nodup) c hc,
    (by decide +kernel : ∀ c ∈ timer.root.children, ∀ d ∈ c.children, d.isRoot = false) c hc,
    (by decide +kernel : ∀ c ∈ timer.root.children, 1 < (c.usableBy ()).length) c hc⟩

theorem timer_lines : timer.smartUsage .standard timer.root () =
    .ok [(Timer.turn, text "turn (on|off)"), (Timer.wait, text "wait [[<n>]]"),
      (Timer.step, text "step (<n>|<n>|off)")] := rfl

/-- Behind `turn` there are two texts, each once. Behind `step` one of them stands twice, so that this is
no group of the different ones. -/
theorem smartUsage_of_several_timer :
    timer.root.usableBy () = [Timer.turn, Timer.wait, Timer.step] ∧
      (∀ c ∈ timer.root.children, c.Branches ()) ∧
      (∃ rest, text "turn (on|off)" = beside (text "turn") rest ∧
        rest = UsageFormat.standard.group false [text "on", text "off"]) ∧
      ∃ rest, text "step (<n>|<n>|off)" = beside (text "step") rest ∧
        rest = UsageFormat.standard.choice false [text "<n>", text "<n>", text "off"] ∧
        rest ≠ UsageFormat.standard.group false [text "<n>", text "<n>", text "off"] := by
  obtain ⟨hfst, hlines⟩ := (smartUsage_of_several timer .standard timer.root ()).2 _ timer_lines
  have hturn : Timer.turn ∈ timer.root.children := List.mem_cons_self
  have hstep : Timer.step ∈ timer.root.children := by simp [timer]
  refine ⟨hfst.symm, timer_branches, ?_, ?_⟩
  · obtain ⟨rest, hline, -, -, hgroup⟩ :=
      hlines Timer.turn _ List.mem_cons_self (timer_branches _ hturn)
    exact ⟨rest, hline, hgroup.mpr (.inl (by decide +kernel))⟩
  · obtain ⟨rest, hline, -, hchoice, hgroup⟩ :=
      hlines Timer.step (text "step (<n>|<n>|off)") (by simp) (timer_branches _ hstep)
    refine ⟨rest, hline, hchoice ⟨text "<n>", ?_, text "off", ?_, ?_⟩, fun h => ?_⟩
    · decide +kernel
    · decide +kernel
    · decide +kernel
    · rcases hgroup.mp h with hnodup | ⟨hsame, -⟩
      · exact absurd hnodup (by decide +kernel)
      · exact absurd hsame (by decide +kernel)

/-- Of two children that are written the same, the text is put into tokens twice. -/
theorem smartUsage_wraps_twice :
    ¬ ∀ (g : Grammar Unit Unit Unit) (u : UsageFormat) (p : Tree Unit Unit Unit) listed,
      g.smartUsage u p () = .ok listed → ∀ c line, (c, line) ∈ listed → c.Branches () →
        line = beside (u.wrap p.command.isSome c.usage) (u.group c.command.isSome (c.ways ())) := by
  intro h
  have hwait : Timer.wait ∈ timer.root.children := by simp [timer]
  have hline := h timer .standard timer.root _ timer_lines Timer.wait (text "wait [[<n>]]") (by simp)
    (timer_branches _ hwait)
  exact absurd hline (by decide +kernel)

end Grammar

end CommandTree
