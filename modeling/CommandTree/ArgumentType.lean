import CommandTree.Draft
import CommandTree.Reader
import CommandTree.Value

/-!
An argument type reads a value, suggests completions of it and gives examples. Any four such parts
make one; the built-in ones are data, so that their bounds can be asked for.
-/

namespace CommandTree

structure ArgumentType where
  /-- How the type is shown in a listing of nodes. -/
  description : Text
  parse : Reader → Reading Value
  suggest : Draft → Except Fault Suggestions
  examples : List Text

/-- How far a text argument reaches: over bytes that need no quotes, over those or a quoted text,
or to the end of the input. -/
inductive StringStyle
  | word
  | phrase
  | greedy
deriving DecidableEq, Repr

inductive BuiltIn
  | bool
  | number (kind : NumberKind) (lowest highest : Number)
  | string (style : StringStyle)
deriving DecidableEq, Repr

namespace BuiltIn

/-- Numbers of a kind without further bounds. -/
def anyNumber (kind : NumberKind) : BuiltIn := .number kind kind.lowest kind.highest

/-- A number inside inclusive bounds. Outside them it is refused at its start. -/
def parseNumber (kind : NumberKind) (lowest highest : Number) (r : Reader) : Reading Number :=
  match r.readNumber kind with
  | (.ok x, n) =>
    if x.lt lowest then (.error (r.reject (.tooLow x lowest)), 0)
    else if highest.lt x then (.error (r.reject (.tooHigh x highest)), 0)
    else (.ok x, n)
  | (.error e, n) => (.error e, n)

def parseString (style : StringStyle) (r : Reader) : Reading Text :=
  match style with
  | .word => r.readUnquoted
  | .phrase => r.readString
  | .greedy => r.readWhile fun _ => true

def parse (type : BuiltIn) (r : Reader) : Reading Value :=
  match type with
  | bool => let (outcome, n) := r.readBool; (outcome.map .bool, n)
  | number kind lowest highest =>
    let (outcome, n) := parseNumber kind lowest highest r; (outcome.map .number, n)
  | string style => let (outcome, n) := parseString style r; (outcome.map .string, n)

/-- Only truth values suggest something: the words that continue what has been typed. -/
def suggest (type : BuiltIn) (d : Draft) : Except Fault Suggestions :=
  match type with
  | bool =>
    let offer (d : Draft) (word : Text) :=
      if d.remainingLower.isPrefixOf word then d.suggest word none else d
    (offer (offer d (text "true")) (text "false")).build
  | _ => .ok .empty

def examples : BuiltIn → List Text
  | bool => ["true", "false"].map text
  | number .integer _ _ => ["0", "123", "-123"].map text
  | number .long _ _ => ["0", "123", "-123"].map text
  | number _ _ _ => ["0", "1.2", ".5", "-1", "-.5", "-1234.56"].map text
  | string .word => ["word", "words_with_underscores"].map text
  | string .phrase => ["\"quoted phrase\"", "word", "\"\""].map text
  | string .greedy => ["word", "words with spaces", "\"and symbols\""].map text

def numberLabel : NumberKind → String
  | .integer => "integer"
  | .long => "longArg"
  | .float => "float"
  | .double => "double"

/-- The bounds are left out where they are those of the kind. -/
def description : BuiltIn → Text
  | bool => text "bool()"
  | number kind lowest highest =>
    let inner : Text :=
      if !highest.equal kind.highest then lowest.toText ++ text ", " ++ highest.toText
      else if !lowest.equal kind.lowest then lowest.toText
      else []
    text (numberLabel kind) ++ text "(" ++ inner ++ text ")"
  | string .word => text "string(word)"
  | string .phrase => text "string(phrase)"
  | string .greedy => text "string(greedy)"

def toArgumentType (type : BuiltIn) : ArgumentType where
  description := type.description
  parse := type.parse
  suggest := type.suggest
  examples := type.examples

end BuiltIn

end CommandTree
