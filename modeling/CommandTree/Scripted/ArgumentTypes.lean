import CommandTree.ArgumentType

/-!
Two argument types beside the built-in ones: a choice from a list of words, and a fixed number of
bytes that can be made to fail after they were read.
-/

namespace CommandTree.Scripted

/-- One of a list of words. Any other word is refused where it starts. -/
def choice (words : List Text) : ArgumentType where
  description := text "custom"
  parse r :=
    match r.readUnquoted with
    | (.ok word, n) =>
      if word ∈ words then (.ok (.string word), n)
      else (.error (r.reject (.custom (text "Unknown choice '" ++ word ++ text "'"))), 0)
    | (.error e, n) => (.error e, n)
  suggest d :=
    (words.foldl (fun d word => if d.remainingLower.isPrefixOf word then d.suggest word none else d)
      d).build
  examples := words

/-- What becomes of the bytes that were read. -/
inductive Taken
  | value
  | runtimeFault (message : Text)
  | refusedHere (message : Text)
  | refused (message : Text)
deriving DecidableEq, Repr

/-- Exactly `count` bytes, whatever they are. -/
def take (count : Nat) (examples : List Text) (taken : Taken) : ArgumentType where
  description := text "custom"
  parse r :=
    if r.remainingLength < count then (.error (.runtime (text "not enough input")), 0)
    else (match taken with
      | .value => .ok (.string (r.rest.take count))
      | .runtimeFault message => .error (.runtime message)
      | .refusedHere message => .error ((r.advance count).reject (.custom message))
      | .refused message => .error (.custom message), count)
  suggest _ := .ok .empty
  examples := examples

end CommandTree.Scripted
