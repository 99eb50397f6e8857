import CommandTree.Proofs.ReadBack
import Mathlib

/-!
Whole numbers inside bounds. A text is a number if it is a row of digits, perhaps behind a minus sign, and
the number has to fit into a word of its kind. Main statement: a number is read exactly if the whole run of
number bytes ahead is one, it fits and lies inside the bounds; whatever else stands there is refused where
it begins, for the first reason that applies.
-/

namespace CommandTree

namespace Decimal

/-- What a row of digits stands for, the last digit for ones, the one before it for tens. -/
def positional (ds : Text) : Nat := Nat.ofDigits 10 (ds.reverse.map Byte.digitValue)

/-- A text is a whole number as it is written out. Zeros may stand before it, and a zero may have a sign. -/
inductive Denotes : Text → Int → Prop
  | plain {ds : Text} (nonempty : ds ≠ []) (digits : ds.all Byte.isDigit = true) :
      Denotes ds (positional ds)
  | negative {ds : Text} (nonempty : ds ≠ []) (digits : ds.all Byte.isDigit = true) :
      Denotes (Byte.minus :: ds) (-(positional ds : Int))

theorem positional_snoc (ds : Text) (c : UInt8) :
    positional (ds ++ [c]) = Byte.digitValue c + 10 * positional ds := by
  simp [positional, Nat.ofDigits_cons]

theorem value_eq_positional {ds : Text} (h : ds.all Byte.isDigit = true) :
    value ds = positional ds := by
  induction ds using List.reverseRecOn with
  | nil => rfl
  | append_singleton ds c ih =>
    rw [List.all_append, Bool.and_eq_true] at h
    have hc : Byte.isDigit c = true := by simpa using h.2
    rw [value_append, ih h.1, positional_snoc, Byte.digitValue, if_pos hc]
    exact Nat.add_comm _ _

theorem readNatural?_eq_some_iff {t : Text} {n : Nat} :
    readNatural? t = some n ↔ (t ≠ [] ∧ t.all Byte.isDigit = true) ∧ positional t = n := by
  rw [readNatural?, Option.ite_none_right_eq_some, Option.some.injEq]
  exact and_congr_right fun h => by rw [value_eq_positional h.2]

theorem readInteger?_eq_some_iff {t : Text} {v : Int} : readInteger? t = some v ↔ Denotes t v := by
  cases t with
  | nil =>
    refine iff_of_false (by simp [readInteger?]) fun h => ?_
    cases h with
    | plain nonempty => exact nonempty rfl
  | cons c ds =>
    rw [readInteger?]
    by_cases hc : c = Byte.minus
    · subst hc
      simp only [if_true, Option.map_eq_some_iff, readNatural?_eq_some_iff]
      constructor
      · rintro ⟨_, ⟨⟨nonempty, digits⟩, rfl⟩, rfl⟩
        exact .negative nonempty digits
      · intro h
        cases h with
        | plain nonempty digits => simp [Byte.isDigit, Byte.minus] at digits
        | negative nonempty digits => exact ⟨_, ⟨⟨nonempty, digits⟩, rfl⟩, rfl⟩
    · simp only [if_neg hc, Option.map_eq_some_iff, readNatural?_eq_some_iff]
      constructor
      · rintro ⟨_, ⟨⟨nonempty, digits⟩, rfl⟩, rfl⟩
        exact .plain nonempty digits
      · intro h
        cases h with
        | plain nonempty digits => exact ⟨_, ⟨⟨nonempty, digits⟩, rfl⟩, rfl⟩
        | negative nonempty digits => exact absurd rfl hc

/-- A number is written in the bytes that numbers are made of. -/
theorem Denotes.allowed {t : Text} {v : Int} (h : Denotes t v) :
    t.all Reader.allowedInNumber = true := by
  have hdigit : ∀ c, Byte.isDigit c = true → Reader.allowedInNumber c = true := fun c hc => by
    simp [Reader.allowedInNumber, hc]
  cases h with
  | plain nonempty digits =>
    exact List.all_eq_true.mpr fun c hc => hdigit c (List.all_eq_true.mp digits c hc)
  | negative nonempty digits =>
    rw [List.all_cons, Bool.and_eq_true]
    exact ⟨by decide, List.all_eq_true.mpr fun c hc => hdigit c (List.all_eq_true.mp digits c hc)⟩

theorem Denotes.ne_nil {t : Text} {v : Int} (h : Denotes t v) : t ≠ [] := by
  cases h with
  | plain nonempty => exact nonempty
  | negative => exact List.cons_ne_nil _ _

theorem denotes_integer (v : Int) : Denotes (integer v) v :=
  readInteger?_eq_some_iff.mp (readInteger?_integer v)

/-- What was written out is all of the run, if no number byte comes behind it. -/
theorem takeWhile_integer (v : Int) {t : Text} (ht : t.head?.any Reader.allowedInNumber = false) :
    (integer v ++ t).takeWhile Reader.allowedInNumber = integer v := by
  rw [List.takeWhile_append_of_pos (List.all_eq_true.mp (denotes_integer v).allowed)]
  cases t with
  | nil => simp
  | cons c more =>
    have hc : Reader.allowedInNumber c = false := ht
    simp [hc]

end Decimal

/-- The two kinds of whole numbers. -/
inductive WordKind
  | integer
  | long
deriving DecidableEq, Repr

namespace WordKind

def kind : WordKind → NumberKind
  | integer => .integer
  | long => .long

def number : WordKind → Int → Number
  | integer => .integer
  | long => .long

def bits : WordKind → Nat
  | integer => 32
  | long => 64

/-- Whether a number fits into a two's complement word of the kind. -/
def Holds (k : WordKind) (v : Int) : Prop := -2 ^ (k.bits - 1) ≤ v ∧ v < 2 ^ (k.bits - 1)

variable {k : WordKind}

theorem lt_number (v w : Int) : (k.number v).lt (k.number w) = decide (v < w) := by
  cases k <;> rfl

theorem read?_eq_some_iff {t : Text} {x : Number} :
    k.kind.read? t = some x ↔ ∃ v, Decimal.Denotes t v ∧ k.Holds v ∧ k.number v = x := by
  have hread : k.kind.read? t = (NumberKind.readWord? k.bits t).map k.number := by cases k <;> rfl
  have htwo : (twoTo (k.bits - 1) : Int) = 2 ^ (k.bits - 1) := Nat.cast_pow 2 _
  simp only [hread, NumberKind.readWord?, htwo, ← Decimal.readInteger?_eq_some_iff, Holds]
  cases Decimal.readInteger? t with
  | none => simp
  | some i => simp [and_assoc]

end WordKind

namespace BuiltIn

open Reader Decimal

variable {k : WordKind} {r : Reader} {run : Text}

section Run

variable (h0 : 0 ≤ r.cursor) (hl : r.cursor ≤ r.input.length)

include h0 hl

theorem parseNumber_missing (hrun : r.rest.takeWhile allowedInNumber = []) (kind : NumberKind)
    (lowest highest : Number) :
    parseNumber kind lowest highest r = (.error (r.reject (.expectedNumber kind)), 0) := by
  simp [parseNumber, readNumber, readWhile_ahead _ h0 hl, hrun]

theorem parseNumber_invalid (hrun : r.rest.takeWhile allowedInNumber = run) (hne : run ≠ [])
    (hbad : ∀ v, Denotes run v → ¬ k.Holds v) (lo hi : Int) :
    parseNumber k.kind (k.number lo) (k.number hi) r =
      (.error (r.reject (.invalidNumber k.kind run)), 0) := by
  have hread : k.kind.read? run = none := by
    rw [Option.eq_none_iff_forall_ne_some]
    intro x hx
    obtain ⟨v, hv, hfits, -⟩ := WordKind.read?_eq_some_iff.mp hx
    exact hbad v hv hfits
  rw [parseNumber, readNumber_run h0 hl hrun hne, hread]

/-- A run that denotes a number of the kind is this number, unless it is out of bounds. -/
theorem parseNumber_denoted (hrun : r.rest.takeWhile allowedInNumber = run) {v : Int}
    (hv : Denotes run v) (hfits : k.Holds v) (lo hi : Int) :
    parseNumber k.kind (k.number lo) (k.number hi) r =
      if v < lo then (.error (r.reject (.tooLow (k.number v) (k.number lo))), 0)
      else if hi < v then (.error (r.reject (.tooHigh (k.number v) (k.number hi))), 0)
      else (.ok (k.number v), run.length) := by
  have hread : k.kind.read? run = some (k.number v) :=
    WordKind.read?_eq_some_iff.mpr ⟨v, hv, hfits, rfl⟩
  rw [parseNumber, readNumber_run h0 hl hrun hv.ne_nil, hread]
  simp only [WordKind.lt_number, decide_eq_true_eq]

theorem parseNumber_inside (hrun : r.rest.takeWhile allowedInNumber = run) {v lo hi : Int}
    (hv : Denotes run v) (hfits : k.Holds v) (hlow : lo ≤ v) (hhigh : v ≤ hi) :
    parseNumber k.kind (k.number lo) (k.number hi) r = (.ok (k.number v), run.length) := by
  rw [parseNumber_denoted h0 hl hrun hv hfits, if_neg (not_lt.mpr hlow), if_neg (not_lt.mpr hhigh)]

/-- Only a run that denotes a number inside the bounds is read. -/
theorem denotes_of_parseNumber (hrun : r.rest.takeWhile allowedInNumber = run) {lo hi : Int}
    {x : Number} {n : Nat} (h : parseNumber k.kind (k.number lo) (k.number hi) r = (.ok x, n)) :
    ∃ v, x = k.number v ∧ n = run.length ∧ Denotes run v ∧ k.Holds v ∧ lo ≤ v ∧ v ≤ hi := by
  by_cases hempty : run = []
  · simp [parseNumber_missing h0 hl (hrun.trans hempty)] at h
  by_cases hbad : ∀ v, Denotes run v → ¬ k.Holds v
  · simp [parseNumber_invalid h0 hl hrun hempty hbad] at h
  push Not at hbad
  obtain ⟨v, hv, hfits⟩ := hbad
  rw [parseNumber_denoted h0 hl hrun hv hfits] at h
  split_ifs at h with hlow hhigh
  · simp at h
  · simp at h
  · obtain ⟨hx, rfl⟩ := Prod.mk.inj h
    exact ⟨v, (Except.ok.inj hx).symm, rfl, hv, hfits, not_lt.mp hlow, not_lt.mp hhigh⟩

/-- A whole number is read exactly if all of the run of number bytes ahead denotes it, it fits into a word of
its kind and lies inside the bounds; then the run is passed over. Everything else is refused where the
reader stands: that there is no number byte, that the run denotes no number that fits, that the number is
too low, that it is too high, the first that applies. So a number that was written out is read back, if no
number byte comes behind it. -/
theorem parseNumber_word (k : WordKind) (lo hi : Int)
    (hrun : r.rest.takeWhile allowedInNumber = run) :
    (∀ x n, parseNumber k.kind (k.number lo) (k.number hi) r = (.ok x, n) ↔
      ∃ v, x = k.number v ∧ n = run.length ∧ Denotes run v ∧ k.Holds v ∧ lo ≤ v ∧ v ≤ hi) ∧
    (run = [] → parseNumber k.kind (k.number lo) (k.number hi) r =
      (.error (r.reject (.expectedNumber k.kind)), 0)) ∧
    (run ≠ [] → (∀ v, Denotes run v → ¬ k.Holds v) →
      parseNumber k.kind (k.number lo) (k.number hi) r =
        (.error (r.reject (.invalidNumber k.kind run)), 0)) ∧
    (∀ v, Denotes run v → k.Holds v → v < lo →
      parseNumber k.kind (k.number lo) (k.number hi) r =
        (.error (r.reject (.tooLow (k.number v) (k.number lo))), 0)) ∧
    (∀ v, Denotes run v → k.Holds v → lo ≤ v → hi < v →
      parseNumber k.kind (k.number lo) (k.number hi) r =
        (.error (r.reject (.tooHigh (k.number v) (k.number hi))), 0)) ∧
    ∀ v t, k.Holds v → lo ≤ v → v ≤ hi → r.rest = integer v ++ t →
      t.head?.any allowedInNumber = false →
      parseNumber k.kind (k.number lo) (k.number hi) r = (.ok (k.number v), (integer v).length) := by
  refine ⟨fun x n => ⟨denotes_of_parseNumber h0 hl hrun, ?_⟩, ?_, ?_, ?_, ?_, ?_⟩
  · rintro ⟨v, rfl, rfl, hv, hfits, hlow, hhigh⟩
    exact parseNumber_inside h0 hl hrun hv hfits hlow hhigh
  · rintro rfl
    exact parseNumber_missing h0 hl hrun _ _ _
  · exact fun hne hbad => parseNumber_invalid h0 hl hrun hne hbad lo hi
  · intro v hv hfits hlow
    rw [parseNumber_denoted h0 hl hrun hv hfits, if_pos hlow]
  · intro v hv hfits hlow hhigh
    rw [parseNumber_denoted h0 hl hrun hv hfits, if_neg (not_lt.mpr hlow), if_pos hhigh]
  · intro v t hfits hlow hhigh hrest ht
    have hwritten : r.rest.takeWhile allowedInNumber = integer v := by
      rw [hrest, takeWhile_integer v ht]
    exact parseNumber_inside h0 hl hwritten (denotes_integer v) hfits hlow hhigh

end Run

/-- A dial goes from one to ten. Zeros before a number do not count; a hundred is too high; and the least
number of the kind can be written and read, where there are no bounds. -/
theorem parseNumber_word_dial :
    parseNumber .integer (.integer 1) (.integer 10) (between (text "dial ") (text "007 up")) =
        (.ok (.integer 7), 3) ∧
      parseNumber .integer (.integer 1) (.integer 10) (between (text "dial ") (text "100")) =
        (.error (.rejected ⟨.tooHigh (.integer 100) (.integer 10), some (text "dial 100", 5)⟩), 0) ∧
      parseNumber .integer (.integer 1) (.integer 10) (between (text "dial ") (text "1-2")) =
        (.error (.rejected ⟨.invalidNumber .integer (text "1-2"), some (text "dial 1-2", 5)⟩), 0) ∧
      parseNumber .integer NumberKind.integer.lowest NumberKind.integer.highest
        (between [] (integer (-2147483648) ++ text ";")) =
          (.ok (.integer (-2147483648)), (integer (-2147483648)).length) := by
  have hin := fun s => inside_between (text "dial ") s
  have hseven : Denotes (text "007") 7 := readInteger?_eq_some_iff.mp (by decide)
  have hhundred : Denotes (text "100") 100 := readInteger?_eq_some_iff.mp (by decide)
  have hrange : ∀ v, Denotes (text "1-2") v → ¬ WordKind.integer.Holds v := fun v hv =>
    absurd (readInteger?_eq_some_iff.mpr hv) (by simp [show readInteger? (text "1-2") = none by decide])
  have hfits : ∀ v : Int, -2147483648 ≤ v → v < 2147483648 → WordKind.integer.Holds v :=
    fun v hlow hhigh => ⟨hlow, hhigh⟩
  refine ⟨?_, ?_, ?_, ?_⟩
  · exact ((parseNumber_word (hin _).1 (hin _).2 .integer 1 10 rfl).1 _ _).mpr
      ⟨7, rfl, rfl, hseven, hfits 7 (by decide) (by decide), by decide, by decide⟩
  · exact (parseNumber_word (hin _).1 (hin _).2 .integer 1 10 rfl).2.2.2.2.1 100 hhundred
      (hfits 100 (by decide) (by decide)) (by decide) (by decide)
  · exact (parseNumber_word (hin _).1 (hin _).2 .integer 1 10 rfl).2.2.1 (by decide) hrange
  · exact (parseNumber_word (inside_between [] _).1 (inside_between [] _).2 .integer (-2147483648)
      2147483647 rfl).2.2.2.2.2 (-2147483648) (text ";") (hfits _ (by decide) (by decide)) (by decide)
      (by decide) (rest_between _ _) (by decide)

end BuiltIn

end CommandTree
