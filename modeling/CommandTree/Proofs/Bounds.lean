import CommandTree.ArgumentType

/-!
Readings stay inside the input: whatever is read, the bytes passed over lie ahead of the reader, and a
reading that fails refuses something that lies ahead. All built-in argument types read so.
-/

namespace CommandTree

namespace Reader

variable {α β : Type}

/-- A successful reading never passes over more than what lies ahead. -/
def StaysInside (read : Reader → Reading α) : Prop :=
  ∀ (r : Reader) (a : α) (n : Nat), 0 ≤ r.cursor → r.cursor ≤ r.input.length →
    read r = (.ok a, n) → r.cursor + n ≤ r.input.length

theorem length_rest {r : Reader} (h0 : 0 ≤ r.cursor) (hl : r.cursor ≤ r.input.length) :
    (r.rest.length : Int) = r.input.length - r.cursor := by
  rw [rest, List.length_drop]
  omega

theorem StaysInside.map {read : Reader → Reading α} (h : StaysInside read) (f : α → β) :
    StaysInside fun r => ((read r).1.map f, (read r).2) := by
  intro r b n h0 hl hr
  rcases hread : read r with ⟨outcome, m⟩
  simp only [hread] at hr
  obtain ⟨hb, rfl⟩ := Prod.mk.inj hr
  cases outcome with
  | error f => exact absurd hb (by simp [Except.map])
  | ok a => exact h r a m h0 hl hread

/-- Inside the input the run of bytes ahead is read, to its end. -/
theorem readWhile_ahead (p : UInt8 → Bool) {r : Reader} (h0 : 0 ≤ r.cursor)
    (hl : r.cursor ≤ r.input.length) :
    r.readWhile p = (.ok (r.rest.takeWhile p), (r.rest.takeWhile p).length) := by
  rw [readWhile, if_pos ⟨h0, hl⟩]

/-- A run of number bytes is a number as a whole, or is refused where it begins. -/
theorem readNumber_run {r : Reader} {run : Text} (h0 : 0 ≤ r.cursor) (hl : r.cursor ≤ r.input.length)
    (hrun : r.rest.takeWhile allowedInNumber = run) (hne : run ≠ []) (kind : NumberKind) :
    r.readNumber kind =
      match kind.read? run with
      | some x => (.ok x, run.length)
      | none => (.error (r.reject (.invalidNumber kind run)), 0) := by
  obtain ⟨c, more, rfl⟩ := List.exists_cons_of_ne_nil hne
  cases hk : kind.read? (c :: more) <;>
    simp only [readNumber, readWhile_ahead _ h0 hl, hrun, hk]

theorem readWhile_staysInside (p : UInt8 → Bool) : StaysInside (readWhile p) := by
  intro r t n h0 hl hr
  rw [readWhile_ahead p h0 hl] at hr
  obtain ⟨-, rfl⟩ := Prod.mk.inj hr
  have hrest := length_rest h0 hl
  have htake := (List.takeWhile_prefix p (l := r.rest)).length_le
  omega

theorem readNumber_staysInside (kind : NumberKind) : StaysInside (readNumber kind) := by
  intro r x n h0 hl hr
  unfold readNumber at hr
  split at hr
  · simp at hr
  · rename_i t m _ hrun
    split at hr
    · obtain ⟨-, rfl⟩ := Prod.mk.inj hr
      exact readWhile_staysInside _ r t _ h0 hl hrun
    · simp at hr
  · simp at hr

namespace Quoted

/-- How many bytes lead up to the end, none where there is no end. -/
def reach : Quoted → Nat
  | closed _ length => length
  | badEscape _ length => length
  | unclosed => 0

theorem reach_after_le (c : UInt8) (bytes : Nat) (q : Quoted) :
    (q.after c bytes).reach ≤ q.reach + bytes := by
  cases q <;> simp [after, reach]

/-- The end of a quoted text is found inside the text that is searched. -/
theorem scan_reach_le (close : UInt8) (t : Text) : (scan close t).reach ≤ t.length := by
  induction t using scan.induct close with
  | case1 => simp [scan, reach]
  | case2 => simp [scan, reach]
  | case3 d more hd ih =>
    have hafter := reach_after_le d 2 (scan close more)
    rw [scan_escaped hd, List.length_cons, List.length_cons]
    omega
  | case4 d more hd =>
    rw [scan_badEscape hd]
    simp [reach]
  | case5 rest hc =>
    rw [scan_close hc]
    simp [reach]
  | case6 c rest hb hc ih =>
    have hafter := reach_after_le c 1 (scan close rest)
    rw [scan_plain hb hc, List.length_cons]
    omega

end Quoted

theorem readUntil_staysInside (close : UInt8) : StaysInside (readUntil close) := by
  intro r t n h0 hl hr
  unfold readUntil at hr
  split at hr
  · rename_i content m hscan
    obtain ⟨-, rfl⟩ := Prod.mk.inj hr
    have hrest := length_rest h0 hl
    have hm := Quoted.scan_reach_le close r.rest
    rw [hscan, Quoted.reach] at hm
    omega
  · simp at hr
  · simp at hr

theorem readString_staysInside : StaysInside readString := by
  intro r t n h0 hl hr
  unfold readString at hr
  split at hr
  · obtain ⟨-, rfl⟩ := Prod.mk.inj hr
    simpa using hl
  · rename_i hmore
    split at hr
    · have hone : r.cursor + 1 ≤ r.input.length := by simpa [canRead] using hmore
      unfold continueAfter at hr
      rcases hread : readUntil (r.peek 0) (r.advance 1) with ⟨outcome, m⟩
      rw [hread] at hr
      obtain ⟨rfl, rfl⟩ := Prod.mk.inj hr
      have h := readUntil_staysInside _ _ t m (by rw [advance_cursor]; omega) hone hread
      simp only [advance_cursor, advance_input] at h
      omega
    · exact readWhile_staysInside _ r t n h0 hl hr

theorem readBool_staysInside : StaysInside readBool := by
  intro r b n h0 hl hr
  unfold readBool at hr
  split at hr
  · rename_i t m hread
    have h := readString_staysInside r t m h0 hl hread
    split at hr
    · simp at hr
    · split at hr
      · obtain ⟨-, rfl⟩ := Prod.mk.inj hr
        exact h
      · split at hr
        · obtain ⟨-, rfl⟩ := Prod.mk.inj hr
          exact h
        · simp at hr
  · simp at hr

/-! Readings that fail -/

/-- The fault refuses something at a place that is not before the reader and not behind the end. -/
def Refuses (r : Reader) (f : Fault) : Prop :=
  ∃ (cause : Cause) (k : Nat), f = (r.advance k).reject cause ∧ r.cursor + k ≤ r.input.length ∧
    ∀ word, cause ≠ .incorrectLiteral word

/-- A reading that fails refuses what lies ahead. -/
def RefusesAhead (read : Reader → Reading α) : Prop :=
  ∀ (r : Reader) (f : Fault) (n : Nat), 0 ≤ r.cursor → r.cursor ≤ r.input.length →
    read r = (.error f, n) → r.Refuses f

theorem refuses_reject {r : Reader} {cause : Cause} {n : Nat} (h : r.cursor + n ≤ r.input.length)
    (hc : ∀ word, cause ≠ .incorrectLiteral word) : r.Refuses ((r.advance n).reject cause) :=
  ⟨cause, n, rfl, h, hc⟩

theorem refuses_here {r : Reader} {cause : Cause} (h : r.cursor ≤ r.input.length)
    (hc : ∀ word, cause ≠ .incorrectLiteral word) : r.Refuses (r.reject cause) := by
  have hrefuses := refuses_reject (n := 0) (by simpa using h) hc
  rwa [advance_zero] at hrefuses

/-- What is refused further on is refused ahead. -/
theorem Refuses.of_advance {r : Reader} {n : Nat} {f : Fault} (h : (r.advance n).Refuses f) :
    r.Refuses f := by
  obtain ⟨cause, k, rfl, hk, hc⟩ := h
  rw [advance_advance]
  rw [advance_cursor, advance_input] at hk
  exact refuses_reject (by omega) hc

theorem RefusesAhead.map {read : Reader → Reading α} (h : RefusesAhead read) (f : α → β) :
    RefusesAhead fun r => ((read r).1.map f, (read r).2) := by
  intro r fault n h0 hl hr
  rcases hread : read r with ⟨outcome, m⟩
  simp only [hread] at hr
  cases outcome with
  | ok a => simp [Except.map] at hr
  | error fault' =>
    obtain ⟨hf, rfl⟩ := Prod.mk.inj hr
    obtain rfl := Except.error.inj hf
    exact h r _ m h0 hl hread

theorem readWhile_refusesAhead (p : UInt8 → Bool) : RefusesAhead (readWhile p) := by
  intro r f n h0 hl hr
  rw [readWhile_ahead p h0 hl] at hr
  simp at hr

theorem readNumber_refusesAhead (kind : NumberKind) : RefusesAhead (readNumber kind) := by
  intro r f n h0 hl hr
  unfold readNumber at hr
  split at hr
  · rename_i m hrun
    obtain rfl := Except.error.inj (Prod.mk.inj hr).1
    exact refuses_reject (readWhile_staysInside _ r _ m h0 hl hrun) (by simp)
  · split at hr
    · simp at hr
    · obtain rfl := Except.error.inj (Prod.mk.inj hr).1
      exact refuses_here hl (by simp)
  · rename_i f' m hrun
    obtain rfl := Except.error.inj (Prod.mk.inj hr).1
    exact readWhile_refusesAhead _ r _ m h0 hl hrun

theorem readUntil_refusesAhead (close : UInt8) : RefusesAhead (readUntil close) := by
  intro r f n h0 hl hr
  have hrest := length_rest h0 hl
  unfold readUntil at hr
  split at hr
  · simp at hr
  · rename_i found m hscan
    obtain rfl := Except.error.inj (Prod.mk.inj hr).1
    have hm := Quoted.scan_reach_le close r.rest
    rw [hscan, Quoted.reach] at hm
    exact refuses_reject (by omega) (by simp)
  · obtain rfl := Except.error.inj (Prod.mk.inj hr).1
    exact refuses_reject (by omega) (by simp)

theorem readString_refusesAhead : RefusesAhead readString := by
  intro r f n h0 hl hr
  unfold readString at hr
  split at hr
  · simp at hr
  · rename_i hmore
    split at hr
    · have hone : r.cursor + 1 ≤ r.input.length := by simpa [canRead] using hmore
      unfold continueAfter at hr
      rcases hread : readUntil (r.peek 0) (r.advance 1) with ⟨outcome, m⟩
      rw [hread] at hr
      obtain ⟨rfl, -⟩ := Prod.mk.inj hr
      exact (readUntil_refusesAhead _ (r.advance 1) f m (by rw [advance_cursor]; omega) hone
        hread).of_advance
    · exact readWhile_refusesAhead _ r f n h0 hl hr

theorem readBool_refusesAhead : RefusesAhead readBool := by
  intro r f n h0 hl hr
  unfold readBool at hr
  split at hr
  · rename_i t m hread
    split at hr
    · obtain rfl := Except.error.inj (Prod.mk.inj hr).1
      exact refuses_reject (readString_staysInside r t m h0 hl hread) (by simp)
    · split at hr
      · simp at hr
      · split at hr
        · simp at hr
        · obtain rfl := Except.error.inj (Prod.mk.inj hr).1
          exact refuses_here hl (by simp)
  · rename_i f' m hread
    obtain rfl := Except.error.inj (Prod.mk.inj hr).1
    exact readString_refusesAhead r _ m h0 hl hread

end Reader

/-- A type that never reads past the end of the input. -/
def ArgumentType.StaysInside (type : ArgumentType) : Prop := Reader.StaysInside type.parse

namespace BuiltIn

theorem parseNumber_staysInside (kind : NumberKind) (lowest highest : Number) :
    Reader.StaysInside (parseNumber kind lowest highest) := by
  intro r x n h0 hl hr
  unfold parseNumber at hr
  split at hr
  · rename_i y m hread
    split at hr
    · simp at hr
    · split at hr
      · simp at hr
      · obtain ⟨-, rfl⟩ := Prod.mk.inj hr
        exact Reader.readNumber_staysInside kind r y _ h0 hl hread
  · simp at hr

theorem parseString_staysInside (style : StringStyle) :
    Reader.StaysInside (parseString style) := by
  cases style with
  | word => exact Reader.readWhile_staysInside _
  | phrase => exact Reader.readString_staysInside
  | greedy => exact Reader.readWhile_staysInside _

/-- No built-in type reads past the end of the input. -/
theorem staysInside (type : BuiltIn) : type.toArgumentType.StaysInside := by
  cases type with
  | bool => exact Reader.readBool_staysInside.map _
  | number kind lowest highest => exact (parseNumber_staysInside kind lowest highest).map _
  | string style => exact (parseString_staysInside style).map _

theorem parseNumber_refusesAhead (kind : NumberKind) (lowest highest : Number) :
    Reader.RefusesAhead (parseNumber kind lowest highest) := by
  intro r f n h0 hl hr
  unfold parseNumber at hr
  split at hr
  · split at hr
    · obtain rfl := Except.error.inj (Prod.mk.inj hr).1
      exact Reader.refuses_here hl (by simp)
    · split at hr
      · obtain rfl := Except.error.inj (Prod.mk.inj hr).1
        exact Reader.refuses_here hl (by simp)
      · simp at hr
  · rename_i f' m hread
    obtain rfl := Except.error.inj (Prod.mk.inj hr).1
    exact Reader.readNumber_refusesAhead kind r _ m h0 hl hread

theorem parseString_refusesAhead (style : StringStyle) :
    Reader.RefusesAhead (parseString style) := by
  cases style with
  | word => exact Reader.readWhile_refusesAhead _
  | phrase => exact Reader.readString_refusesAhead
  | greedy => exact Reader.readWhile_refusesAhead _

/-- A built-in type fails only by refusing what lies ahead. -/
theorem refusesAhead (type : BuiltIn) : Reader.RefusesAhead type.parse := by
  cases type with
  | bool => exact Reader.readBool_refusesAhead.map _
  | number kind lowest highest => exact (parseNumber_refusesAhead kind lowest highest).map _
  | string style => exact (parseString_refusesAhead style).map _

end BuiltIn

end CommandTree
