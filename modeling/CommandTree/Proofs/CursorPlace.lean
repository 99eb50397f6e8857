import CommandTree.Proofs.Derivation
import CommandTree.Proofs.Layout
import CommandTree.Proofs.Spoiling
import CommandTree.Proofs.Visibility
import Mathlib

/-!
Where a cursor stands in a parse. It touches one match at most, and then its place is before that match;
otherwise it stands behind all matches, and its place is behind the last one, or at the start of a last
frame that has none. Main statement: a cursor inside the input stands at exactly one place, which does
not begin behind it, so that completing there can only fail through one of the children that are asked.
-/

namespace CommandTree

variable {S C M : Type}

/-- Which places fit a cursor: where it touches a match, the start of the match, below the match before
it or the root of its frame. Where it touches none, one byte behind the last match of the last frame,
below that match; and if that frame has no match, the start of the frame, below its root. -/
inductive Place.Fits (cursor : Int) (segments : List (Segment S C M)) : Place → Prop
  | touching {s : Segment S C M} {before after : List Match} {m : Match} (frame : s ∈ segments)
      (split : s.frame.matched = before ++ m :: after) (touches : m.Touches cursor) :
      Fits cursor segments ⟨(before.getLast?.map Match.node).or s.frame.root, m.span.start⟩
  | behind {s : Segment S C M} {m : Match} (last : segments.getLast? = some s)
      (latest : s.frame.matched.getLast? = some m)
      (free : ∀ s ∈ segments, ∀ m ∈ s.frame.matched, ¬ m.Touches cursor) :
      Fits cursor segments ⟨some m.node, m.span.stop + 1⟩
  | blank {s : Segment S C M} (last : segments.getLast? = some s) (unmatched : s.frame.matched = [])
      (free : ∀ s ∈ segments, ∀ m ∈ s.frame.matched, ¬ m.Touches cursor) :
      Fits cursor segments ⟨s.frame.root, s.frame.span.start⟩

/-- Some place fits a cursor, wherever it is. -/
theorem Place.exists_fits (cursor : Int) {segments : List (Segment S C M)} (h : segments ≠ []) :
    ∃ place : Place, place.Fits cursor segments := by
  by_cases htouched : ∃ s ∈ segments, ∃ m ∈ s.frame.matched, m.Touches cursor
  · obtain ⟨s, hs, m, hm, htouches⟩ := htouched
    obtain ⟨before, after, hsplit⟩ := List.append_of_mem hm
    exact ⟨_, .touching hs hsplit htouches⟩
  · have hfree : ∀ s ∈ segments, ∀ m ∈ s.frame.matched, ¬ m.Touches cursor :=
      fun s hs m hm htouches => htouched ⟨s, hs, m, hm, htouches⟩
    have hlast := List.getLast?_eq_some_getLast h
    cases hm : (segments.getLast h).frame.matched.getLast? with
    | none => exact ⟨_, .blank hlast (List.getLast?_eq_none_iff.mp hm) hfree⟩
    | some m => exact ⟨_, .behind hlast hm hfree⟩

namespace Frame.Laid

variable {s : Segment S C M} {next cursor : Int} {before after : List Match} {m : Match}

/-- A match that touches the cursor decides its place, whatever frames come later. -/
theorem locate_touched (h : s.frame.Laid next) (split : s.frame.matched = before ++ m :: after)
    (touches : m.Touches cursor) (later : List (Segment S C M)) :
    Place.locate cursor s later =
      .ok ⟨(before.getLast?.map Match.node).or s.frame.root, m.span.start⟩ := by
  have hrow := h.row
  have hstop := h.stop (by simp [split])
  rw [split] at hrow
  have hinside := hrow.inside (List.mem_append_right before List.mem_cons_self)
  have hbefore := hrow.before_touched touches
  obtain ⟨hle, hge⟩ := touches
  rw [Place.locate_within (by omega) (by omega), split, Place.within_append _ _ _ _ _ hbefore,
    Place.within, if_pos ⟨hle, hge⟩]

/-- A cursor that touches no match of a frame stands behind it. -/
theorem stop_lt_of_free (h : s.frame.Laid next) (matched : s.frame.matched ≠ [])
    (hstart : s.frame.span.start ≤ cursor) (free : ∀ m ∈ s.frame.matched, ¬ m.Touches cursor) :
    s.frame.span.stop < cursor := by
  have hstop := h.stop matched
  by_contra hle
  obtain ⟨before, m, after, hsplit, htouches⟩ :=
    h.row.exists_touched hstart (by omega)
  exact free m (by simp [hsplit]) htouches

end Frame.Laid

namespace Laid

variable {s : Segment S C M} {later : List (Segment S C M)} {cursor : Int} {place : Place}

theorem rooted (h : Laid (s :: later)) :
    ∀ s' ∈ s :: later, ∃ i, s'.frame.root = some i := by
  generalize s :: later = all at h
  induction h with
  | last frame => exact fun s' hs' => List.mem_singleton.mp hs' ▸ frame.rooted
  | more frame _ _ _ ih => exact List.forall_mem_cons.mpr ⟨frame.rooted, ih⟩

/-- The place is found for a cursor, and lies between the start of the first frame and the cursor. -/
structure Found (cursor : Int) (s : Segment S C M) (later : List (Segment S C M)) (place : Place) :
    Prop where
  located : Place.locate cursor s later = .ok place
  start_le : s.frame.span.start ≤ place.start
  le_cursor : place.start ≤ cursor

theorem found_of_touched {next : Int} {before after : List Match} {m : Match}
    (frame : s.frame.Laid next) (split : s.frame.matched = before ++ m :: after)
    (touches : m.Touches cursor) (later : List (Segment S C M)) :
    Found cursor s later ⟨(before.getLast?.map Match.node).or s.frame.root, m.span.start⟩ where
  located := frame.locate_touched split touches later
  start_le := (frame.row.inside (split ▸ List.mem_append_right _ List.mem_cons_self)).1
  le_cursor := touches.1

/-- In a single frame the place that fits is found. -/
theorem found_alone {next : Int} (frame : s.frame.Laid next) (hstart : s.frame.span.start ≤ cursor)
    (hfits : place.Fits cursor [s]) : Found cursor s [] place := by
  cases hfits with
  | touching mem split touches =>
    obtain rfl := List.mem_singleton.mp mem
    exact found_of_touched frame split touches []
  | @behind s' m last latest free =>
    obtain rfl : s = s' := by simpa using last
    have hne : s.frame.matched ≠ [] := by
      intro hnil
      simp [hnil] at latest
    have hpast := frame.stop_lt_of_free hne hstart (free s List.mem_cons_self)
    have hend := frame.stop hne
    have hlast := frame.row.stop_last latest
    have hle := frame.start_le_stop
    refine ⟨?_, by dsimp only; omega, by dsimp only; omega⟩
    rw [Place.locate, if_neg (by omega), if_pos hpast, Place.behind, latest]
  | @blank s' last unmatched free =>
    obtain rfl : s = s' := by simpa using last
    obtain ⟨i, hroot⟩ := frame.rooted
    refine ⟨?_, Int.le_refl _, hstart⟩
    rw [Place.locate, if_neg (by omega), Place.behind, unmatched, hroot]
    split_ifs <;> rfl

/-- A frame that ends before the cursor leaves it to the next, which begins right behind. -/
theorem Found.pass {s' : Segment S C M} (h : Found cursor s' later place)
    (hle : s.frame.span.start ≤ s.frame.span.stop)
    (hbegins : s.frame.span.stop + 1 = s'.frame.span.start) (hpast : s.frame.span.stop < cursor) :
    Found cursor s (s' :: later) place := by
  have hge := h.start_le
  refine ⟨?_, by omega, h.le_cursor⟩
  rw [Place.locate, if_neg (by omega), if_pos hpast, h.located]

/-- Either a match of the first frame is touched, or the place fits the frames behind it. -/
theorem later_of_fits {s' : Segment S C M} {next : Int} (frame : s.frame.Laid next)
    (matched : s.frame.matched ≠ []) (begins : s'.frame.span.start = next) (rest : Laid (s' :: later))
    (hstart : s.frame.span.start ≤ cursor) (hfits : place.Fits cursor (s :: s' :: later)) :
    Found cursor s (s' :: later) place ∨
      place.Fits cursor (s' :: later) ∧ s.frame.span.stop < cursor := by
  have hend := frame.stop matched
  cases hfits with
  | touching mem split touches =>
    rcases List.mem_cons.mp mem with rfl | mem
    · exact .inl (found_of_touched frame split touches _)
    · obtain ⟨_, hrow⟩ := rest.row
      have hinside := hrow.inside (List.mem_flatMap.mpr
        ⟨_, mem, split ▸ List.mem_append_right _ List.mem_cons_self⟩)
      have htouches := touches.1
      exact .inr ⟨.touching mem split touches, by omega⟩
  | behind last latest free =>
    obtain ⟨hfirst, hfree⟩ := List.forall_mem_cons.mp free
    exact .inr ⟨.behind (List.getLast?_cons_cons ▸ last) latest hfree,
      frame.stop_lt_of_free matched hstart hfirst⟩
  | blank last unmatched free =>
    obtain ⟨hfirst, hfree⟩ := List.forall_mem_cons.mp free
    exact .inr ⟨.blank (List.getLast?_cons_cons ▸ last) unmatched hfree,
      frame.stop_lt_of_free matched hstart hfirst⟩

/-- The place that fits a cursor is found. -/
theorem found_of_fits (h : Laid (s :: later)) (hstart : s.frame.span.start ≤ cursor)
    (hfits : place.Fits cursor (s :: later)) : Found cursor s later place := by
  generalize hall : s :: later = all at h hfits
  induction h generalizing s later with
  | last frame =>
    obtain ⟨rfl, rfl⟩ := List.cons.inj hall
    exact found_alone frame hstart hfits
  | more frame matched begins rest ih =>
    obtain ⟨rfl, rfl⟩ := List.cons.inj hall
    rcases later_of_fits frame matched begins rest hstart hfits with hfound | ⟨hlater, hpast⟩
    · exact hfound
    · have hend := frame.stop matched
      exact (ih (by omega) rfl hlater).pass frame.start_le_stop (by omega) hpast

theorem parent_of_fits (h : Laid (s :: later)) (hfits : place.Fits cursor (s :: later)) :
    ∃ i, place.parent = some i := by
  cases hfits with
  | @touching s' before _ _ mem _ _ =>
    obtain ⟨i, hi⟩ := h.rooted s' mem
    cases hlast : before.getLast? with
    | none => exact ⟨i, by simp [hi]⟩
    | some m => exact ⟨m.node, by simp⟩
  | @behind _ m _ _ _ => exact ⟨m.node, rfl⟩
  | @blank s' last _ _ => exact h.rooted s' (List.mem_of_getLast? last)

end Laid

namespace Grammar

variable {g : Grammar S C M} {source : S} {r : Reader} {p : Parse S C M}

theorem Reaches.input_eq {t : Tree S C M} {s : Segment S C M} (h : g.Reaches t r s p) :
    p.reader.input = r.input := by
  induction h with
  | stop | rest => rfl
  | child _ _ _ _ _ _ ih | redirect _ _ _ _ _ _ ih => exact ih

/-- A cursor stands at a place of a parse, below a node, and there is a draft to fill. -/
structure Stands (p : Parse S C M) (start cursor : Int) (place : Place) (i : NodeId) (d : Draft) :
    Prop where
  located : p.chain.locate cursor = .ok place
  fits : place.Fits cursor p.chain.all
  /-- No other place fits the cursor. -/
  only : ∀ other : Place, other.Fits cursor p.chain.all → other = place
  /-- The cursor touches one match at most. -/
  once : ∀ (a b : Nat) (m m' : Match), p.matches[a]? = some m → p.matches[b]? = some m' →
    m.Touches cursor → m'.Touches cursor → a = b
  parent : place.parent = some i
  start_le : start ≤ place.start
  le_cursor : place.start ≤ cursor
  opened : Draft.ofInput (p.reader.input.first cursor) (min place.start cursor) = .ok d

/-- A cursor behind the place where a parse began stands at a place of the parse, if the input reaches
up to it. -/
theorem exists_stands (hp : g.parse source r = .ok p) (h0 : 0 ≤ r.cursor) {cursor : Int}
    (hstart : r.cursor ≤ cursor) (hcursor : cursor ≤ r.input.length) :
    ∃ place i d, Stands p r.cursor cursor place i d := by
  obtain ⟨hlaid, hfirst⟩ := laid_of_parse hp
  have hbegin : p.chain.first.frame.span.start ≤ cursor := hfirst ▸ hstart
  obtain ⟨place, hfits⟩ := Place.exists_fits cursor (List.cons_ne_nil p.chain.first p.chain.later)
  obtain ⟨hlocate, hge, hle⟩ := hlaid.found_of_fits hbegin hfits
  obtain ⟨i, hparent⟩ := hlaid.parent_of_fits hfits
  obtain ⟨_, hrow⟩ := hlaid.row
  have hlength := Text.length_first (h0.trans hstart) hcursor
  rw [← (reaches_of_parseAt hp).input_eq] at hlength
  refine ⟨place, i, .blank (p.reader.input.first cursor) place.start.toNat, hlocate, hfits,
    fun other hother => ?_, fun a b m m' => hrow.touched_once, hparent, hfirst ▸ hge, hle, ?_⟩
  · exact Except.ok.inj ((hlaid.found_of_fits hbegin hother).located.symm.trans hlocate)
  · have hmin : min place.start cursor = (place.start.toNat : Int) := by omega
    rw [hmin, Draft.ofInput_blank (by omega)]

/-- A cursor inside the input, behind the place where the parse began, stands at the one place that fits
it, and the token there begins at the cursor or before it. So only the children below that place can
make completing there fail: one whose requirement fails, or one that the source may use and that spoils
the suggestions with its own. -/
theorem complete_where_stands (hp : g.parse source r = .ok p) (h0 : 0 ≤ r.cursor) (cursor : Int)
    (hstart : r.cursor ≤ cursor) (hcursor : cursor ≤ r.input.length) :
    ∃ place i d, Stands p r.cursor cursor place i d ∧
      ∀ f, g.complete p cursor = .error f → ∃ t ∈ (g.resolve i).children,
        t.admits source = .error f ∨
          t.admits source = .ok true ∧ t.HasOwnSuggestions ∧
            t.Spoils (p.chain.first.context (r.input.first cursor)) d r.input f := by
  obtain ⟨place, i, d, hstands⟩ := exists_stands hp h0 hstart hcursor
  refine ⟨place, i, d, hstands, fun f hf => ?_⟩
  have hinput := (reaches_of_parseAt hp).input_eq
  have hopened := hstands.opened
  rw [hinput] at hopened
  rw [complete_of_place hstands.located, hinput, hopened, source_of_parse hp, hstands.parent,
    Option.map_some, Option.getD_some] at hf
  rcases invited_eq source d (g.resolve i).children with ⟨e, he, t, ht, hadmits⟩ | hok
  · rw [he] at hf
    obtain rfl : e = f := by simpa [Except.bind] using hf
    exact ⟨t, ht, .inl hadmits⟩
  · rw [hok] at hf
    obtain ⟨t, ht, hspoils⟩ := gather_error hf
    obtain ⟨ht, hwelcome⟩ := List.mem_filter.mp ht
    have hspan := inside_of_ofInput (h0.trans hstart) hcursor hopened
    exact ⟨t, ht, .inr ⟨welcomes_iff.mp hwelcome,
      hasOwnSuggestions_of_spoils (entries_ofInput hopened) hspan hspoils, hspoils⟩⟩

/-- The redirect leads to a frame that is still empty, and the cursor stands at its start, below the
root. -/
theorem complete_where_stands_echo :
    ∃ p d all, echo.parse () (.ofText (text "run ")) = .ok p ∧ p.chain.later ≠ [] ∧
      Stands p 0 4 ⟨some [0], 4⟩ [0] d ∧ echo.complete p 4 = .ok all ∧
      all.span = ⟨4, 4⟩ ∧ all.list.map Suggestion.text = [text "run", text "say"] := by
  have h : (echo.parse () (.ofText (text "run "))).map (fun p => (p.chain.later.length,
      p.chain.locate 4, (echo.complete p 4).map fun all =>
        (all.span, all.list.map Suggestion.text))) =
        .ok (1, .ok ⟨some [0], 4⟩, .ok (⟨4, 4⟩, [text "run", text "say"])) := by
    cbv
  obtain ⟨p, hp, hparts⟩ := map_eq_ok_iff.mp h
  simp only [Prod.mk.injEq] at hparts
  obtain ⟨hlater, hplace, hcompleted⟩ := hparts
  obtain ⟨all, hall, hsuggested⟩ := map_eq_ok_iff.mp hcompleted
  obtain ⟨hspan, htexts⟩ := Prod.mk.inj hsuggested
  obtain ⟨place, i, d, hstands, -⟩ := complete_where_stands hp (by decide) 4 (by decide)
    (by decide)
  obtain rfl := Except.ok.inj (hplace.symm.trans hstands.located)
  obtain rfl : [0] = i := Option.some.inj hstands.parent
  exact ⟨p, d, all, hp, fun hnil => by simp [hnil] at hlater, hstands, hall, hspan, htexts⟩

end Grammar

end CommandTree
