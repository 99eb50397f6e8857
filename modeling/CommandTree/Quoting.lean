import CommandTree.Reader

/-!
Writing a text so that a reader reads it back: in double quotes, with a backslash before every
quote and backslash, or bare when no byte needs quotes.
-/

namespace CommandTree.Quoting

/-- The bytes that are written with a backslash before them. -/
def needsBackslash (c : UInt8) : Bool := c == Byte.backslash || c == Byte.quote

def encode : Text → Text
  | [] => []
  | c :: rest => if needsBackslash c then Byte.backslash :: c :: encode rest else c :: encode rest

/-- The bytes of an encoded text are read back as what they stand for, up to the closing quote. -/
theorem scan_encode (t rest : Text) :
    Reader.Quoted.scan Byte.quote (encode t ++ Byte.quote :: rest) =
      .closed t ((encode t).length + 1) := by
  induction t with
  | nil => exact Reader.Quoted.scan_close (by decide) rest
  | cons c t ih =>
    by_cases h : needsBackslash c = true
    · have hc : c = Byte.quote ∨ c = Byte.backslash := by
        simpa [needsBackslash, or_comm] using h
      simp only [encode, if_pos h, List.cons_append]
      rw [Reader.Quoted.scan_escaped hc, ih]
      rfl
    · have hc : c ≠ Byte.backslash ∧ c ≠ Byte.quote := by simpa [needsBackslash] using h
      simp only [encode, if_neg h, List.cons_append]
      rw [Reader.Quoted.scan_plain hc.1 hc.2, ih]
      rfl

/-- The text in double quotes. -/
def quote (t : Text) : Text := Byte.quote :: (encode t ++ [Byte.quote])

/-- The text in double quotes, unless all its bytes may stand without. -/
def quoteIfRequired (t : Text) : Text := if t.all Reader.allowedUnquoted then t else quote t

end CommandTree.Quoting
