import CommandTree.Proofs.Words
import CommandTree.Quoting

/-!
Reading back what was written. A text in quotes is read to its closing quote, whatever comes behind
it; a bare text is read to the next gap.
-/

namespace CommandTree

namespace Reader

/-- A reader between what was read and what lies ahead. -/
def between (before ahead : Text) : Reader := ⟨before ++ ahead, before.length⟩

@[simp] theorem input_between (before ahead : Text) :
    (between before ahead).input = before ++ ahead := rfl

@[simp] theorem cursor_between (before ahead : Text) :
    (between before ahead).cursor = before.length := rfl

@[simp] theorem rest_between (before ahead : Text) :
    (between before ahead).rest = ahead := by simp [rest]

theorem inside_between (before ahead : Text) : 0 ≤ (between before ahead).cursor ∧
    (between before ahead).cursor ≤ (between before ahead).input.length := by
  simp

variable {r : Reader}

theorem peek_of_rest {c : UInt8} {more : Text} (h0 : 0 ≤ r.cursor) (h : r.rest = c :: more) :
    r.peek 0 = c := by
  have hget : r.input[r.cursor.toNat]? = some c := by
    have hhead : r.rest[0]? = some c := by rw [h]; rfl
    rwa [rest, List.getElem?_drop, Nat.add_zero] at hhead
  have hn : ¬ r.cursor < 0 := by omega
  simp [peek, hn, hget]

theorem canRead_one_of_rest {c : UInt8} {more : Text} (h0 : 0 ≤ r.cursor)
    (hl : r.cursor ≤ r.input.length) (h : r.rest = c :: more) : r.canRead 1 = true := by
  rw [canRead_iff h0 hl, h, List.length_cons]
  omega

theorem allowedUnquoted_of_isQuote {c : UInt8} (h : isQuote c = true) :
    allowedUnquoted c = false := by
  have hc : c = Byte.quote ∨ c = Byte.apostrophe := by simpa [isQuote] using h
  rcases hc with rfl | rfl <;> decide

end Reader

namespace Quoting

open Reader

variable {r : Reader} {t tail : Text}

/-- A run of bytes that need no quotes is read up to the gap behind it. -/
theorem takeWhile_bare (ht : t.all allowedUnquoted = true) (hgap : tail.AtGap) :
    (t ++ tail).takeWhile allowedUnquoted = t := by
  rw [List.takeWhile_append_of_pos (List.all_eq_true.mp ht)]
  rcases hgap with rfl | ⟨more, rfl⟩
  · simp
  · have hs : ¬ allowedUnquoted separator = true := by decide
    simp [hs]

/-- Neither a bare text nor the gap behind it begins with a quote. -/
theorem isQuote_head_bare {c : UInt8} {more : Text} (ht : t.all allowedUnquoted = true)
    (hgap : tail.AtGap) (h : t ++ tail = c :: more) : isQuote c = false := by
  cases t with
  | nil =>
    rcases hgap with rfl | ⟨rest, rfl⟩
    · exact absurd h (by simp)
    · have hc : separator = c := List.head_eq_of_cons_eq h
      subst hc
      decide
  | cons d t =>
    have hd : d = c := List.head_eq_of_cons_eq h
    have hallowed := List.all_eq_true.mp ht d List.mem_cons_self
    by_contra hq
    rw [hd, allowedUnquoted_of_isQuote (Bool.not_eq_false _ ▸ hq)] at hallowed
    exact absurd hallowed (by decide)

theorem readString_bare (h0 : 0 ≤ r.cursor) (hl : r.cursor ≤ r.input.length)
    (ht : t.all allowedUnquoted = true) (hgap : tail.AtGap) (hr : r.rest = t ++ tail) :
    r.readString = (.ok t, t.length) := by
  have hplain : r.readUnquoted = (.ok t, t.length) := by
    rw [readUnquoted, readWhile_ahead _ h0 hl, hr, takeWhile_bare ht hgap]
  unfold readString
  by_cases hread : r.canRead 1 = true
  · cases hrest : r.rest with
    | nil =>
      rw [canRead_iff h0 hl, hrest] at hread
      simp at hread
    | cons c more =>
      rw [peek_of_rest h0 hrest, isQuote_head_bare ht hgap (hr.symm.trans hrest)]
      simp [hread, hplain]
  · have hnil : r.rest = [] := by
      rw [canRead_iff h0 hl] at hread
      exact List.eq_nil_of_length_eq_zero (by omega)
    have htnil : t = [] := (List.append_eq_nil_iff.mp (hr.symm.trans hnil)).1
    simp [hread, htnil]

/-- A quoted text is read back, whatever comes behind it. -/
theorem readString_quote (h0 : 0 ≤ r.cursor) (hl : r.cursor ≤ r.input.length)
    (hr : r.rest = quote t ++ tail) : r.readString = (.ok t, (quote t).length) := by
  have hcons : r.rest = Byte.quote :: (encode t ++ Byte.quote :: tail) := by
    rw [hr]
    simp [quote]
  have hscan : Quoted.scan Byte.quote (r.advance 1).rest =
      .closed t ((encode t).length + 1) := by
    rw [rest_advance h0, hcons]
    exact scan_encode t tail
  have huntil : readUntil Byte.quote (r.advance 1) = (.ok t, (encode t).length + 1) := by
    rw [readUntil, hscan]
  have hlen : (quote t).length = 1 + ((encode t).length + 1) := by
    simp [quote]
    omega
  have hq : isQuote Byte.quote = true := by decide
  unfold readString
  rw [peek_of_rest h0 hcons, canRead_one_of_rest h0 hl hcons, hlen, continueAfter, huntil]
  simp [hq]

/-- What was written with quotes where needed is read back, if a gap comes behind it. -/
theorem readString_quoteIfRequired (h0 : 0 ≤ r.cursor) (hl : r.cursor ≤ r.input.length)
    (hgap : tail.AtGap) (hr : r.rest = quoteIfRequired t ++ tail) :
    r.readString = (.ok t, (quoteIfRequired t).length) := by
  by_cases ht : t.all allowedUnquoted = true
  · rw [quoteIfRequired, if_pos ht] at hr ⊢
    exact readString_bare h0 hl ht hgap hr
  · rw [quoteIfRequired, if_neg ht] at hr ⊢
    exact readString_quote h0 hl hr

theorem quoteIfRequired_eq_nil_iff : quoteIfRequired t = [] ↔ t = [] := by
  unfold quoteIfRequired quote
  split <;> rename_i h
  · rfl
  · refine iff_of_false (by simp) fun ht => h ?_
    rw [ht]
    rfl

end Quoting

end CommandTree
