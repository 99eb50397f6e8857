import CommandTree.Proofs.Words

/-!
How the matches of a parse lie in its input. They stand in a row, each one byte behind the one before,
also where a redirect lies between them; and the frames cut the row into stretches, of which only the
last can be without a match. That holds whatever the argument types read, and also where they match no
bytes at all.
-/

namespace CommandTree

/-- Matches in a row, from one position up to another: the first begins at the one, each of the others
a byte behind the one before it, and the next would begin at the other. -/
inductive Row : Int → List Match → Int → Prop
  | nil {position : Int} : Row position [] position
  | cons {position next : Int} {m : Match} {ms : List Match} (begins : m.span.start = position)
      (forwards : position ≤ m.span.stop) (rest : Row (m.span.stop + 1) ms next) :
      Row position (m :: ms) next

/-- The match covers the position, or ends there. -/
def Match.Touches (m : Match) (position : Int) : Prop :=
  m.span.start ≤ position ∧ position ≤ m.span.stop

namespace Row

variable {i j k position : Int} {m m' : Match} {ms ms' : List Match}

theorem append (h : Row i ms j) (h' : Row j ms' k) : Row i (ms ++ ms') k := by
  induction h with
  | nil => exact h'
  | cons begins forwards _ ih => exact .cons begins forwards (ih h')

theorem split (h : Row i (ms ++ ms') k) : ∃ j, Row i ms j ∧ Row j ms' k := by
  induction ms generalizing i with
  | nil => exact ⟨i, .nil, h⟩
  | cons m ms ih =>
    cases h with
    | cons begins forwards rest =>
      obtain ⟨j, hms, hms'⟩ := ih rest
      exact ⟨j, .cons begins forwards hms, hms'⟩

theorem le (h : Row i ms j) : i ≤ j := by
  induction h with
  | nil => exact Int.le_refl _
  | cons begins forwards _ ih => omega

theorem inside (h : Row i ms j) (hm : m ∈ ms) :
    i ≤ m.span.start ∧ m.span.start ≤ m.span.stop ∧ m.span.stop < j := by
  induction h with
  | nil => exact absurd hm List.not_mem_nil
  | cons begins forwards rest ih =>
    have hle := rest.le
    rcases List.mem_cons.mp hm with rfl | hm
    · omega
    · have hinside := ih hm
      omega

theorem stop_last (h : Row i ms j) (hm : ms.getLast? = some m) : m.span.stop + 1 = j := by
  obtain ⟨before, rfl⟩ := List.getLast?_eq_some_iff.mp hm
  obtain ⟨k, -, hlast⟩ := h.split
  cases hlast with
  | cons _ _ rest => cases rest; rfl

/-- A match that is touched begins behind all that stand before it. -/
theorem before_touched (h : Row i (ms ++ m :: ms') j) (hm : m.Touches position) :
    ∀ b ∈ ms, b.span.stop < position := by
  obtain ⟨k, hms, hrest⟩ := h.split
  intro b hb
  have hinside := hms.inside hb
  have hstart := (hrest.inside List.mem_cons_self).1
  have htouches := hm.1
  omega

/-- No position touches two matches of a row. -/
theorem touched_once (h : Row i ms j) {a b : Nat} (ha : ms[a]? = some m) (hb : ms[b]? = some m')
    (hm : m.Touches position) (hm' : m'.Touches position) : a = b := by
  induction h generalizing a b with
  | nil => simp at ha
  | @cons _ _ head tail begins forwards rest ih =>
    have hhead : ∀ {x : Match}, x ∈ tail → x.Touches position → ¬ head.Touches position := by
      intro x hx ht ht'
      have hinside := (rest.inside hx).1
      have hstart := ht.1
      have hstop := ht'.2
      omega
    cases a with
    | zero =>
      obtain rfl : head = m := by simpa using ha
      cases b with
      | zero => rfl
      | succ b => exact absurd hm (hhead (List.mem_of_getElem? (by simpa using hb)) hm')
    | succ a =>
      cases b with
      | zero =>
        obtain rfl : head = m' := by simpa using hb
        exact absurd hm' (hhead (List.mem_of_getElem? (by simpa using ha)) hm)
      | succ b => exact congrArg Nat.succ (ih (by simpa using ha) (by simpa using hb))

/-- Between the matches of a row there is no room: every position before its end touches one. -/
theorem exists_touched (h : Row i ms j) (hi : i ≤ position) (hj : position < j) :
    ∃ before m after, ms = before ++ m :: after ∧ m.Touches position := by
  induction h with
  | nil => omega
  | @cons _ _ m ms begins forwards rest ih =>
    by_cases hstop : position ≤ m.span.stop
    · exact ⟨[], m, ms, rfl, by omega, hstop⟩
    · obtain ⟨before, m', after, rfl, htouches⟩ := ih (by omega) hj
      exact ⟨m :: before, m', after, rfl, htouches⟩

end Row

/-- The matches of a frame stand in a row below its root. Its span begins where the row does and ends
with the last of them; the next match would begin at the position. -/
structure Frame.Laid {S : Type} (f : Frame S) (next : Int) : Prop where
  rooted : ∃ i, f.root = some i
  row : Row f.span.start f.matched next
  blank : f.matched = [] → f.span.stop = f.span.start
  stop : f.matched ≠ [] → f.span.stop + 1 = next

namespace Frame.Laid

variable {S : Type} {f : Frame S} {next : Int}

theorem start (source : S) (i : NodeId) (position : Int) :
    (Frame.start source (some i) position).Laid position where
  rooted := ⟨i, rfl⟩
  row := .nil
  blank _ := rfl
  stop h := absurd rfl h

theorem start_le_stop (h : f.Laid next) : f.span.start ≤ f.span.stop := by
  by_cases hm : f.matched = []
  · rw [h.blank hm]
  · obtain ⟨m, hm'⟩ := List.exists_mem_of_ne_nil _ hm
    have hinside := h.row.inside hm'
    have hstop := h.stop hm
    omega

/-- One more match, where the next would begin, keeps the frame in order. -/
theorem push (h : f.Laid next) {m : Match} (begins : m.span.start = next)
    (forwards : next ≤ m.span.stop) : (f.push m).Laid (m.span.stop + 1) := by
  have hle := h.row.le
  have hspan : (f.push m).span = ⟨f.span.start, m.span.stop⟩ := by
    have hstop : f.span.stop ≤ next := by
      by_cases hm : f.matched = []
      · rw [h.blank hm]
        exact hle
      · have hstop := h.stop hm
        omega
    simp only [Frame.push, Span.union, Span.mk.injEq]
    omega
  refine ⟨h.rooted, ?_, fun hnone => ?_, fun _ => by rw [hspan]⟩
  · rw [hspan]
    exact h.row.append (.cons begins forwards .nil)
  · simp [Frame.push] at hnone

/-- A frame covers no bytes exactly when it has no match, or a single one that covers none. -/
theorem isEmpty_iff (h : f.Laid next) :
    f.span.isEmpty = true ↔
      f.matched = [] ∨ ∃ m, f.matched = [m] ∧ m.span.isEmpty = true := by
  obtain ⟨-, hrow, hblank, hstop⟩ := h
  simp only [Span.isEmpty_iff]
  cases hm : f.matched with
  | nil => simp [hblank hm]
  | cons m ms =>
    have hstop := hstop (by simp [hm])
    rw [hm] at hrow
    cases hrow with
    | cons begins forwards rest =>
      cases ms with
      | nil =>
        cases rest with
        | nil => simp; omega
      | cons m' ms =>
        have hle := (rest.inside List.mem_cons_self)
        simp; omega

end Frame.Laid

/-- Frames one after another: each begins where the next match of the one before would, and only the
last can be without a match. -/
inductive Laid {S C M : Type} : List (Segment S C M) → Prop
  | last {s : Segment S C M} {next : Int} (frame : s.frame.Laid next) : Laid [s]
  | more {s s' : Segment S C M} {later : List (Segment S C M)} {next : Int}
      (frame : s.frame.Laid next) (matched : s.frame.matched ≠ [])
      (begins : s'.frame.span.start = next) (rest : Laid (s' :: later)) : Laid (s :: s' :: later)

namespace Laid

variable {S C M : Type} {s : Segment S C M} {later : List (Segment S C M)}

theorem first (h : Laid (s :: later)) : ∃ next, s.frame.Laid next := by
  cases h with
  | last frame | more frame => exact ⟨_, frame⟩

/-- The matches of all frames stand in one row. -/
theorem row (h : Laid (s :: later)) :
    ∃ next, Row s.frame.span.start ((s :: later).flatMap fun s => s.frame.matched) next := by
  generalize hall : s :: later = all at h
  induction h generalizing s later with
  | last frame =>
    obtain ⟨rfl, rfl⟩ := List.cons.inj hall
    exact ⟨_, by simpa using frame.row⟩
  | more frame _ begins _ ih =>
    obtain ⟨rfl, rfl⟩ := List.cons.inj hall
    obtain ⟨next, hrow⟩ := ih rfl
    exact ⟨next, by simpa using frame.row.append (begins ▸ hrow)⟩

/-- Without a match in the first frame there is no other. -/
theorem matched_first (h : Laid (s :: later))
    (hne : (s :: later).flatMap (fun s => s.frame.matched) ≠ []) : s.frame.matched ≠ [] := by
  cases h with
  | last => simpa using hne
  | more _ matched => exact matched

end Laid

namespace Grammar

variable {S C M : Type} {g : Grammar S C M} {t c : Tree S C M} {r : Reader} {s : Segment S C M}
  {p : Parse S C M}

/-- A child that matches where the next match would begin keeps the frame in order. -/
theorem laid_matched {s' : Segment S C M} {n : Nat} (hs : s.frame.Laid r.cursor)
    (hc : c ∈ t.relevant r) (h : c.attempt r s = .ok (s', n)) :
    s'.frame.Laid (r.advance (n + 1)).cursor ∧ s'.frame.matched ≠ [] ∧
      s'.frame.span.start = s.frame.span.start := by
  have hframe := Tree.frame_of_attempt (Tree.mem_relevant hc).2 h
  have hpush := hs.push (m := ⟨c.id, c.tag, ⟨r.cursor, r.cursor + n⟩⟩) rfl (by dsimp only; omega)
  have hnext : r.cursor + n + 1 = (r.advance (n + 1)).cursor := by
    rw [Reader.advance_cursor]
    omega
  obtain ⟨hrooted, hrow, hblank, hstop⟩ := hpush
  have hstart : (s.frame.push ⟨c.id, c.tag, ⟨r.cursor, r.cursor + n⟩⟩).span.start =
      s.frame.span.start := by
    have hle := hs.row.le
    simp only [Frame.push, Span.union]
    omega
  rw [hframe, ← hnext]
  exact ⟨⟨hrooted, hrow, hblank, hstop⟩, by simp [Frame.push], hstart⟩

/-- Wherever a parse comes to rest, its frames are in order, from where it began. -/
theorem Reaches.laid (h : g.Reaches t r s p) (hs : s.frame.Laid r.cursor) :
    Laid p.chain.all ∧ p.chain.first.frame.span.start = s.frame.span.start := by
  induction h with
  | stop => exact ⟨.last hs, rfl⟩
  | rest relevant _ matched _ =>
    obtain ⟨hs', -, hstart⟩ := laid_matched hs relevant matched
    exact ⟨.last hs', hstart⟩
  | child relevant _ matched _ _ _ ih =>
    obtain ⟨hs', -, hstart⟩ := laid_matched hs relevant matched
    obtain ⟨hlaid, hfirst⟩ := ih hs'
    exact ⟨hlaid, hfirst.trans hstart⟩
  | redirect relevant _ matched _ _ _ ih =>
    obtain ⟨hs', hsome, hstart⟩ := laid_matched hs relevant matched
    obtain ⟨hlaid, hfirst⟩ := ih (.start _ _ _)
    exact ⟨.more hs' hsome hfirst hlaid, hstart⟩

/-- The frames of every parse are in order, from the cursor of its reader. -/
theorem laid_of_parse {source : S} (h : g.parse source r = .ok p) :
    Laid p.chain.all ∧ p.chain.first.frame.span.start = r.cursor :=
  (reaches_of_parseAt h).laid (.start _ _ _)

end Grammar

end CommandTree
