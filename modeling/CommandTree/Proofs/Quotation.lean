import CommandTree.Proofs.ReadBack

/-!
What may stand between quotes. A byte is spelled as it is, but a quote of the same kind and a backslash are
spelled with a backslash before them. Main statements: a text in quotes is read exactly where a spelling of
it leads up to the closing quote, and all else is refused where it first goes wrong; what was written in
quotes is read back, whatever stands before and behind it.
-/

namespace CommandTree

namespace Reader

namespace Quoted

/-- A text is spelled between quotes of a kind. -/
inductive Spells (close : UInt8) : Text → Text → Prop
  | nil : Spells close [] []
  | plain {c : UInt8} {raw t : Text} (notClose : c ≠ close) (notBackslash : c ≠ Byte.backslash)
      (more : Spells close raw t) : Spells close (c :: raw) (c :: t)
  | escaped {c : UInt8} {raw t : Text} (special : c = close ∨ c = Byte.backslash)
      (more : Spells close raw t) : Spells close (Byte.backslash :: c :: raw) (c :: t)

/-- Where what stands behind the opening quote leads: a spelling goes on to the closing quote, to a
backslash that spells nothing, or to the end, where a backslash may be left alone. -/
inductive Ends (close : UInt8) : Text → Quoted → Prop
  | closed {raw t : Text} (spells : Spells close raw t) (rest : Text) :
      Ends close (raw ++ close :: rest) (closed t (raw.length + 1))
  | badEscape {raw t : Text} {d : UInt8} (spells : Spells close raw t)
      (bad : ¬(d = close ∨ d = Byte.backslash)) (rest : Text) :
      Ends close (raw ++ Byte.backslash :: d :: rest) (badEscape d (raw.length + 1))
  | spent {raw t : Text} (spells : Spells close raw t) : Ends close raw unclosed
  | alone {raw t : Text} (spells : Spells close raw t) :
      Ends close (raw ++ [Byte.backslash]) unclosed

variable {close : UInt8} {raw t : Text}

/-- The same end with more content and more bytes before it. -/
def behind (t : Text) (bytes : Nat) : Quoted → Quoted
  | closed content length => closed (t ++ content) (length + bytes)
  | badEscape found length => badEscape found (length + bytes)
  | unclosed => unclosed

@[simp] theorem behind_nil (x : Quoted) : x.behind [] 0 = x := by cases x <;> rfl

@[simp] theorem after_behind (x : Quoted) (c : UInt8) (t : Text) (m n : Nat) :
    (x.behind t m).after c n = x.behind (c :: t) (m + n) := by
  cases x <;> simp [behind, after, Nat.add_assoc]

/-- A search goes on behind a spelling as if it started there. -/
theorem Spells.scan_append (h : Spells close raw t) (s : Text) :
    scan close (raw ++ s) = (scan close s).behind t raw.length := by
  induction h with
  | nil => simp
  | plain notClose notBackslash more ih =>
    rw [List.cons_append, scan_plain notBackslash notClose, ih, after_behind, List.length_cons]
  | escaped special more ih =>
    rw [List.cons_append, List.cons_append, scan_escaped special, ih, after_behind]
    rfl

/-- A search ends where a spelling leads. -/
theorem Ends.scan_eq (hclose : close ≠ Byte.backslash) {s : Text} {x : Quoted}
    (h : Ends close s x) : scan close s = x := by
  cases h with
  | closed spells rest =>
    rw [spells.scan_append, scan_close hclose]
    simp [behind, Nat.add_comm]
  | badEscape spells bad rest =>
    rw [spells.scan_append, scan_badEscape bad]
    simp [behind, Nat.add_comm]
  | spent spells =>
    have h := spells.scan_append []
    rwa [List.append_nil] at h
  | alone spells =>
    rw [spells.scan_append]
    rfl

/-- One unit before a text does not change where the text leads. -/
theorem Ends.after {s : Text} {x : Quoted} {c : UInt8} (h : Ends close s x) (unit : Text)
    (hunit : ∀ raw t, Spells close raw t → Spells close (unit ++ raw) (c :: t)) :
    Ends close (unit ++ s) (x.after c unit.length) := by
  have hlen : ∀ raw : Text, raw.length + 1 + unit.length = (unit ++ raw).length + 1 := fun raw => by
    rw [List.length_append]
    omega
  cases h with
  | closed spells rest =>
    rw [Quoted.after, hlen, ← List.append_assoc]
    exact .closed (hunit _ _ spells) rest
  | badEscape spells bad rest =>
    rw [Quoted.after, hlen, ← List.append_assoc]
    exact .badEscape (hunit _ _ spells) bad rest
  | spent spells => exact .spent (hunit _ _ spells)
  | alone spells =>
    rw [Quoted.after, ← List.append_assoc]
    exact .alone (hunit _ _ spells)

/-- Every text leads somewhere, and a search finds out where. -/
theorem ends_scan (close : UInt8) (s : Text) : Ends close s (scan close s) := by
  induction s using scan.induct close with
  | case1 => exact .spent .nil
  | case2 => exact .alone .nil
  | case3 d more hd ih =>
    rw [scan_escaped hd]
    exact ih.after [Byte.backslash, d] fun raw t h => .escaped hd h
  | case4 d more hd =>
    rw [scan_badEscape hd]
    exact .badEscape .nil hd more
  | case5 rest hc =>
    rw [scan_close hc]
    exact .closed .nil rest
  | case6 c rest hb hc ih =>
    rw [scan_plain hb hc]
    exact ih.after [c] fun raw t h => .plain hc hb h

/-- A text leads up to its closing quote, or to a bad escape, or nowhere. -/
theorem leads (close : UInt8) (s : Text) :
    (∃ raw t rest, Spells close raw t ∧ s = raw ++ close :: rest) ∨
    (∃ raw t d rest, Spells close raw t ∧ ¬(d = close ∨ d = Byte.backslash) ∧
      s = raw ++ Byte.backslash :: d :: rest) ∨
    Ends close s unclosed := by
  have hends := ends_scan close s
  generalize scan close s = x at hends
  cases hends with
  | closed spells rest => exact .inl ⟨_, _, rest, spells, rfl⟩
  | badEscape spells bad rest => exact .inr (.inl ⟨_, _, _, rest, spells, bad, rfl⟩)
  | spent spells => exact .inr (.inr (.spent spells))
  | alone spells => exact .inr (.inr (.alone spells))

end Quoted

variable {q : UInt8}

theorem ne_backslash_of_isQuote (hq : isQuote q = true) : q ≠ Byte.backslash := by
  rintro rfl
  exact absurd hq (by decide)

/-- At a quote both readings search behind it for where the text leads. -/
theorem read_at_quote (p : Text) {s : Text} (hq : isQuote q = true) :
    (between p (q :: s)).readQuoted = (between p (q :: s)).continueAfter 1 (readUntil q) ∧
      (between p (q :: s)).readString = (between p (q :: s)).continueAfter 1 (readUntil q) ∧
      ((between p (q :: s)).advance 1).rest = s := by
  have hin := inside_between p (q :: s)
  have hrest := rest_between p (q :: s)
  have hpeek := peek_of_rest hin.1 hrest
  have hread := canRead_one_of_rest hin.1 hin.2 hrest
  refine ⟨?_, ?_, ?_⟩
  · rw [readQuoted, hpeek, hread]
    simp [hq]
  · rw [readString, hpeek, hread]
    simp [hq]
  · rw [rest_advance hin.1, hrest]
    rfl

section Outcomes

open Quoted

variable (p : Text) {s raw t : Text}

/-! What is read at a quote, for each way on -/

theorem readQuoted_closed (hq : isQuote q = true) (hraw : Spells q raw t) (rest : Text) :
    (between p (q :: (raw ++ q :: rest))).readQuoted = (.ok t, raw.length + 2) := by
  obtain ⟨hquoted, -, hrest⟩ := read_at_quote p (s := raw ++ q :: rest) hq
  rw [hquoted, continueAfter, readUntil, hrest,
    (Ends.closed hraw rest).scan_eq (ne_backslash_of_isQuote hq)]
  exact Prod.ext rfl (by simp; omega)

theorem readQuoted_badEscape (hq : isQuote q = true) (hraw : Spells q raw t) {d : UInt8}
    (bad : ¬(d = q ∨ d = Byte.backslash)) (rest : Text) :
    (between p (q :: (raw ++ Byte.backslash :: d :: rest))).readQuoted =
      (.error (.rejected ⟨.invalidEscape d,
        some (p ++ q :: (raw ++ Byte.backslash :: d :: rest), p.length + raw.length + 2)⟩),
        raw.length + 2) := by
  obtain ⟨hquoted, -, hrest⟩ := read_at_quote p (s := raw ++ Byte.backslash :: d :: rest) hq
  rw [hquoted, continueAfter, readUntil, hrest,
    (Ends.badEscape hraw bad rest).scan_eq (ne_backslash_of_isQuote hq)]
  simp [reject, error]
  omega

theorem readQuoted_unclosed (hq : isQuote q = true) (hs : Ends q s unclosed) :
    (between p (q :: s)).readQuoted =
      (.error (.rejected ⟨.unclosedQuote, some (p ++ q :: s, (p ++ q :: s).length)⟩), s.length + 1) := by
  obtain ⟨hquoted, -, hrest⟩ := read_at_quote p (s := s) hq
  rw [hquoted, continueAfter, readUntil, hrest, hs.scan_eq (ne_backslash_of_isQuote hq)]
  simp [reject, error]
  omega

/-- At a quote a text is read exactly if a spelling of it leads up to the next quote that is not part of
it, and the reader then stands behind this quote. Where a spelling leads to a backslash before a byte that
needs none, this byte is refused at its place. All else is refused at the end of the input. -/
theorem readQuoted_iff (p s : Text) (hq : isQuote q = true) :
    (between p (q :: s)).readString = (between p (q :: s)).readQuoted ∧
    (∀ t n, (between p (q :: s)).readQuoted = (.ok t, n) ↔
      ∃ raw rest, s = raw ++ q :: rest ∧ Spells q raw t ∧ n = raw.length + 2) ∧
    (∀ raw t d rest, s = raw ++ Byte.backslash :: d :: rest → Spells q raw t → d ≠ q →
      d ≠ Byte.backslash → (between p (q :: s)).readQuoted =
        (.error (.rejected ⟨.invalidEscape d, some (p ++ q :: s, p.length + raw.length + 2)⟩),
          raw.length + 2)) ∧
    ((¬ ∃ raw t rest, s = raw ++ q :: rest ∧ Spells q raw t) →
      (¬ ∃ raw t d rest, s = raw ++ Byte.backslash :: d :: rest ∧ Spells q raw t ∧ d ≠ q ∧
        d ≠ Byte.backslash) →
      (between p (q :: s)).readQuoted =
        (.error (.rejected ⟨.unclosedQuote, some (p ++ q :: s, (p ++ q :: s).length)⟩),
          s.length + 1)) := by
  obtain ⟨hquoted, hstring, -⟩ := read_at_quote p (s := s) hq
  refine ⟨hstring.trans hquoted.symm, fun t n => ⟨fun h => ?_, ?_⟩, ?_, fun hopen hfine => ?_⟩
  · rcases leads q s with ⟨raw, u, rest, hraw, rfl⟩ | ⟨raw, u, d, rest, hraw, bad, rfl⟩ | hends
    · rw [readQuoted_closed p hq hraw rest] at h
      simp only [Prod.mk.injEq, Except.ok.injEq] at h
      obtain ⟨rfl, rfl⟩ := h
      exact ⟨raw, rest, rfl, hraw, rfl⟩
    · rw [readQuoted_badEscape p hq hraw bad rest] at h
      simp at h
    · rw [readQuoted_unclosed p hq hends] at h
      simp at h
  · rintro ⟨raw, rest, rfl, hraw, rfl⟩
    exact readQuoted_closed p hq hraw rest
  · rintro raw t d rest rfl hraw hd hd'
    exact readQuoted_badEscape p hq hraw (not_or.mpr ⟨hd, hd'⟩) rest
  · rcases leads q s with ⟨raw, t, rest, hraw, hs⟩ | ⟨raw, t, d, rest, hraw, bad, hs⟩ | hends
    · exact absurd ⟨raw, t, rest, hs, hraw⟩ hopen
    · exact absurd ⟨raw, t, d, rest, hs, hraw, not_or.mp bad⟩ hfine
    · exact readQuoted_unclosed p hq hends

/-- The quote is read that has a backslash before it; the line break that has one is refused. -/
theorem readQuoted_iff_apostrophe :
    isQuote Byte.apostrophe = true ∧
      (between (text "say ") (text "'it\\'s' so")).readQuoted = (.ok (text "it's"), 7) ∧
      (between (text "say ") (text "'a\\n'")).readQuoted =
        (.error (.rejected ⟨.invalidEscape 110, some (text "say 'a\\n'", 7)⟩), 3) := by
  have hq : isQuote Byte.apostrophe = true := by decide
  have hits : Spells Byte.apostrophe [105, 116, 92, 39, 115] (text "it's") :=
    .plain (by decide) (by decide) (.plain (by decide) (by decide) (.escaped (.inl rfl)
      (.plain (by decide) (by decide) .nil)))
  have ha : Spells Byte.apostrophe [97] (text "a") := .plain (by decide) (by decide) .nil
  refine ⟨hq, ?_, ?_⟩
  · exact ((readQuoted_iff (text "say ") _ hq).2.1 _ _).mpr ⟨_, text " so", rfl, hits, rfl⟩
  · exact (readQuoted_iff (text "say ") _ hq).2.2.1 _ _ 110 (text "'") rfl ha (by decide) (by decide)

end Outcomes

end Reader

namespace Quoting

open Reader

/-- What was written in quotes is read back where it stands, whatever surrounds it; what was written in
quotes only where it needs them is read back too, if it ends at a gap. -/
theorem read_in_place (p s t : Text) :
    (between p (quote s ++ t)).readString = (.ok s, (quote s).length) ∧
      (between p (quote s ++ t)).readQuoted = (.ok s, (quote s).length) ∧
      (t.AtGap → (between p (quoteIfRequired s ++ t)).readString =
        (.ok s, (quoteIfRequired s).length)) := by
  have hstring : (between p (quote s ++ t)).readString = (.ok s, (quote s).length) :=
    readString_quote (inside_between p _).1 (inside_between p _).2 (rest_between p _)
  obtain ⟨hquoted, hsame, -⟩ := read_at_quote p (s := encode s ++ [Byte.quote] ++ t)
    (show isQuote Byte.quote = true by decide)
  refine ⟨hstring, (hquoted.trans hsame.symm).trans hstring, fun hgap => ?_⟩
  exact readString_quoteIfRequired (inside_between p _).1 (inside_between p _).2 hgap
    (rest_between p _)

/-- The backslash needs quotes, the name does not. -/
theorem read_in_place_path :
    Text.AtGap (text " now") ∧
      (between (text "open ") (quoteIfRequired (text "a\\b") ++ text " now")).readString =
        (.ok (text "a\\b"), 6) ∧
      (between (text "open ") (quoteIfRequired (text "a.b") ++ text " now")).readString =
        (.ok (text "a.b"), 3) := by
  have hgap : Text.AtGap (text " now") := .inr ⟨text "now", rfl⟩
  exact ⟨hgap, (read_in_place (text "open ") (text "a\\b") (text " now")).2.2 hgap,
    (read_in_place (text "open ") (text "a.b") (text " now")).2.2 hgap⟩

end Quoting

end CommandTree
