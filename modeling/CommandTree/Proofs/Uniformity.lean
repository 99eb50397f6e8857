import CommandTree.ArgumentType
import CommandTree.Proofs.Bounds
import Mathlib

/-!
Readings do not look back. A reader may have any text put before its input: what lies ahead stays the
same, and every position moves by the length of that text. All readings, and with them all built-in
argument types, come to the same behind such a text, with their errors moved.
-/

namespace CommandTree

/-- The error as it arises with a text before the input. -/
def SyntaxError.behind (before : Text) (e : SyntaxError) : SyntaxError :=
  ⟨e.cause, e.position.map fun p => (before ++ p.1, p.2 + before.length)⟩

def Fault.behind (before : Text) : Fault → Fault
  | rejected e => rejected (e.behind before)
  | f => f

/-- The reading as it comes out with a text before the input. -/
def Reading.behind {α : Type} (before : Text) (x : Reading α) : Reading α :=
  (x.1.mapError (Fault.behind before), x.2)

namespace Reader

variable {r : Reader} {α β : Type}

/-- The reader with a text put before its input. -/
def behind (before : Text) (r : Reader) : Reader := ⟨before ++ r.input, r.cursor + before.length⟩

/-- The cursor is inside the input, or at its end. -/
def Inside (r : Reader) : Prop := 0 ≤ r.cursor ∧ r.cursor ≤ r.input.length

@[simp] theorem cursor_behind (before : Text) (r : Reader) :
    (r.behind before).cursor = r.cursor + before.length := rfl

theorem advance_behind (before : Text) (r : Reader) (n : Nat) :
    (r.behind before).advance n = (r.advance n).behind before := by
  simp only [behind, advance, mk.injEq, true_and]
  omega

theorem canRead_behind (before : Text) (r : Reader) (n : Int) :
    (r.behind before).canRead n = r.canRead n := by
  simp only [canRead, behind, List.length_append, decide_eq_decide]
  omega

theorem rest_of_behind (before : Text) (h0 : 0 ≤ r.cursor) :
    (r.behind before).rest = r.rest := by
  have hcursor : (r.cursor + before.length).toNat = before.length + r.cursor.toNat := by omega
  rw [rest, rest, behind, hcursor, ← List.drop_drop, List.drop_left]

theorem peek_behind (before : Text) (h0 : 0 ≤ r.cursor) :
    (r.behind before).peek 0 = r.peek 0 := by
  have hcursor : (r.cursor + before.length).toNat = before.length + r.cursor.toNat := by omega
  have hn : ¬ r.cursor < 0 := by omega
  have hn' : ¬ r.cursor + before.length < 0 := by omega
  simp only [peek, behind, Int.add_zero, hn, hn', if_false, hcursor]
  rw [List.getElem?_append_right (by omega), Nat.add_sub_cancel_left]

theorem atBoundary_behind (before : Text) (h0 : 0 ≤ r.cursor) :
    (r.behind before).atBoundary = r.atBoundary := by
  rw [atBoundary, atBoundary, canRead_behind, peek_behind before h0]

theorem error_behind (before : Text) (r : Reader) (cause : Cause) :
    (r.behind before).error cause = (r.error cause).behind before := rfl

theorem reject_behind (before : Text) (r : Reader) (cause : Cause) :
    (r.behind before).reject cause = (r.reject cause).behind before := rfl

theorem inside_behind_iff (before : Text) (h0 : 0 ≤ r.cursor) :
    (r.behind before).Inside ↔ r.Inside := by
  simp only [Inside, behind, List.length_append]
  omega

/-- Where there is more behind a token, the reader is still inside its input one byte further. -/
theorem Inside.next {n : Nat} {m : Int} (h : r.Inside) (hm : 1 ≤ m)
    (hread : (r.advance n).canRead m = true) : (r.advance (n + 1)).Inside := by
  have h0 := h.1
  have hread := of_decide_eq_true hread
  simp only [Inside, advance_cursor, advance_input] at hread ⊢
  omega

/-- A reader inside its input is one at the beginning of what lies ahead, behind what does not. -/
theorem eq_behind (h : r.Inside) :
    r = (ofText r.rest).behind (r.input.take r.cursor.toNat) := by
  have hlen : ((r.input.take r.cursor.toNat).length : Int) = r.cursor := by
    have hin := h
    unfold Inside at hin
    rw [List.length_take]
    omega
  cases r with
  | mk input cursor =>
    simp only [behind, ofText, rest, hlen, List.take_append_drop, Int.zero_add]

/-- A reading that comes to the same behind any text. -/
def Uniform (read : Reader → Reading α) : Prop :=
  ∀ (before : Text) (r : Reader), r.Inside → read (r.behind before) = (read r).behind before

theorem Uniform.map {read : Reader → Reading α} (h : Uniform read) (f : α → β) :
    Uniform fun r => ((read r).1.map f, (read r).2) := by
  intro before r hr
  show ((read (r.behind before)).1.map f, (read (r.behind before)).2) =
    Reading.behind before ((read r).1.map f, (read r).2)
  rw [h before r hr]
  rcases read r with ⟨_ | _, n⟩ <;> rfl

theorem readWhile_uniform (p : UInt8 → Bool) : Uniform (readWhile p) := by
  intro before r hr
  have hin : 0 ≤ r.cursor ∧ r.cursor ≤ r.input.length := hr
  have hin' : 0 ≤ (r.behind before).cursor ∧
      (r.behind before).cursor ≤ (r.behind before).input.length :=
    (inside_behind_iff before hr.1).mpr hr
  rw [readWhile, readWhile, if_pos hin', if_pos hin, rest_of_behind before hr.1]
  rfl

theorem readNumber_uniform (kind : NumberKind) : Uniform (readNumber kind) := by
  intro before r hr
  unfold readNumber
  rw [readWhile_uniform _ before r hr]
  rcases readWhile allowedInNumber r with ⟨f | _ | ⟨c, t⟩, n⟩
  · rfl
  · simp only [Reading.behind, Except.mapError, advance_behind, reject_behind]
  · simp only [Reading.behind, Except.mapError]
    cases kind.read? (c :: t) with
    | none => simp only [reject_behind]
    | some x => rfl

theorem readUntil_uniform (close : UInt8) : Uniform (readUntil close) := by
  intro before r hr
  unfold readUntil
  rw [rest_of_behind before hr.1]
  cases Quoted.scan close r.rest with
  | closed content n => rfl
  | badEscape found n => simp only [Reading.behind, Except.mapError, advance_behind, reject_behind]
  | unclosed => simp only [Reading.behind, Except.mapError, advance_behind, reject_behind]

theorem readString_uniform : Uniform readString := by
  intro before r hr
  unfold readString
  rw [canRead_behind, peek_behind before hr.1]
  by_cases hmore : r.canRead 1 = true
  · have hone : (r.advance 1).Inside := by
      have hread := of_decide_eq_true hmore
      have hin := hr
      unfold Inside at hin ⊢
      rw [advance_cursor, advance_input]
      omega
    by_cases hq : isQuote (r.peek 0) = true
    · simp only [hmore, hq, Bool.not_true, Bool.false_eq_true, if_false, if_true, continueAfter]
      rw [advance_behind, readUntil_uniform _ before _ hone]
      rfl
    · simp only [hmore, hq, Bool.not_true, Bool.false_eq_true, if_false]
      exact readWhile_uniform _ before r hr
  · simp only [hmore, Bool.not_false, if_true]
    rfl

theorem readBool_uniform : Uniform readBool := by
  intro before r hr
  unfold readBool
  rw [readString_uniform before r hr]
  rcases readString r with ⟨f | t, n⟩
  · rfl
  · simp only [Reading.behind, Except.mapError]
    by_cases hnil : t = []
    · simp only [if_pos hnil, advance_behind, reject_behind]
    · by_cases ht : t = text "true"
      · simp only [if_neg hnil, if_pos ht]
      · by_cases hf : t = text "false"
        · simp only [if_neg hnil, if_neg ht, if_pos hf]
        · simp only [if_neg hnil, if_neg ht, if_neg hf, reject_behind]

end Reader

/-- A type that comes to the same behind any text. -/
def ArgumentType.Uniform (type : ArgumentType) : Prop := Reader.Uniform type.parse

/-- A type whose values depend on what lies ahead only. -/
def ArgumentType.Local (type : ArgumentType) : Prop :=
  ∀ r r' : Reader, r.Inside → r'.Inside → r.rest = r'.rest →
    ∀ v n, type.parse r = (.ok v, n) → type.parse r' = (.ok v, n)

/-- What comes to the same behind any text depends on what lies ahead only. -/
theorem ArgumentType.Uniform.isLocal {type : ArgumentType} (h : type.Uniform) : type.Local := by
  intro r r' hr hr' hrest v n hread
  have hstart : (Reader.ofText r.rest).Inside := ⟨Int.le_refl 0, Int.natCast_nonneg _⟩
  have hvalue : type.parse (.ofText r.rest) = (.ok v, n) := by
    rw [Reader.eq_behind hr, h _ _ hstart] at hread
    rcases hx : type.parse (.ofText r.rest) with ⟨f | w, m⟩
    · simp [Reading.behind, hx, Except.mapError] at hread
    · simpa [Reading.behind, hx, Except.mapError] using hread
  rw [Reader.eq_behind hr', ← hrest, h _ _ hstart, hvalue]
  rfl

namespace BuiltIn

theorem parseNumber_uniform (kind : NumberKind) (lowest highest : Number) :
    Reader.Uniform (parseNumber kind lowest highest) := by
  intro before r hr
  unfold parseNumber
  rw [Reader.readNumber_uniform kind before r hr]
  rcases Reader.readNumber kind r with ⟨f | x, n⟩
  · rfl
  · simp only [Reading.behind, Except.mapError]
    by_cases hlow : x.lt lowest = true
    · simp only [hlow, if_true, Reader.reject_behind]
    · by_cases hhigh : highest.lt x = true
      · simp only [hlow, hhigh, if_true, if_false, Bool.false_eq_true, Reader.reject_behind]
      · simp only [hlow, hhigh, if_false, Bool.false_eq_true]

theorem parseString_uniform (style : StringStyle) : Reader.Uniform (parseString style) := by
  cases style with
  | word => exact Reader.readWhile_uniform _
  | phrase => exact Reader.readString_uniform
  | greedy => exact Reader.readWhile_uniform _

/-- All built-in types come to the same behind any text. -/
theorem uniform (type : BuiltIn) : type.toArgumentType.Uniform := by
  cases type with
  | bool => exact Reader.readBool_uniform.map _
  | number kind lowest highest => exact (parseNumber_uniform kind lowest highest).map _
  | string style => exact (parseString_uniform style).map _

end BuiltIn

end CommandTree
