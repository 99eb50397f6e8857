import CommandTree.Number

/-!
What can go wrong. A syntax error has a cause and, unless it arose without an input, the input and
a position in it. Every other failure of a call is a fault of its own.
-/

namespace CommandTree

/-- Why an input was refused. -/
inductive Cause
  | tooLow (found bound : Number)
  | tooHigh (found bound : Number)
  | incorrectLiteral (expected : Text)
  | expectedQuote
  | unclosedQuote
  | invalidEscape (found : UInt8)
  | expectedBool
  | invalidBool (found : Text)
  | expectedNumber (kind : NumberKind)
  | invalidNumber (kind : NumberKind) (found : Text)
  | expectedSymbol (expected : UInt8)
  | unknownCommand
  | unknownArgument
  | expectedSeparator
  | unreadable (reason : Text)
  | custom (message : Text)
deriving DecidableEq, Repr

namespace Cause

def message : Cause → Text
  | tooLow found bound =>
    text (found.kind.title ++ " must not be less than ") ++ bound.toText ++ text ", found " ++
      found.toText
  | tooHigh found bound =>
    text (found.kind.title ++ " must not be more than ") ++ bound.toText ++ text ", found " ++
      found.toText
  | incorrectLiteral expected => text "Expected literal " ++ expected
  | expectedQuote => text "Expected quote to start a string"
  | unclosedQuote => text "Unclosed quoted string"
  | invalidEscape found => text "Invalid escape sequence '" ++ found :: text "' in quoted string"
  | expectedBool => text "Expected bool"
  | invalidBool found =>
    text "Invalid bool, expected true or false but found '" ++ found ++ text "'"
  | expectedNumber kind => text ("Expected " ++ kind.noun)
  | invalidNumber kind found => text ("Invalid " ++ kind.noun ++ " '") ++ found ++ text "'"
  | expectedSymbol expected => text "Expected '" ++ expected :: text "'"
  | unknownCommand => text "Unknown command"
  | unknownArgument => text "Incorrect argument for command"
  | expectedSeparator =>
    text "Expected whitespace to end one argument, but found trailing data"
  | unreadable reason => text "Could not parse command: " ++ reason
  | custom message => message

end Cause

structure SyntaxError where
  cause : Cause
  position : Option (Text × Int)
deriving DecidableEq, Repr

namespace SyntaxError

def message (e : SyntaxError) : Text := e.cause.message

def input (e : SyntaxError) : Option Text := e.position.map Prod.fst

/-- The position of the error, -1 where there is none. -/
def cursor (e : SyntaxError) : Int :=
  match e.position with
  | some (_, cursor) => cursor
  | none => -1

/-- How many bytes before the cursor are shown. -/
def contextAmount : Nat := 10

/-- The bytes that lead up to a position, marked as cut off when there are more. -/
def leadUp (input : Text) (cursor : Nat) : Text :=
  let cursor := min input.length cursor
  let shown := (input.take cursor).drop (cursor - contextAmount)
  (if contextAmount < cursor then text "..." else []) ++ shown ++ text "<--[HERE]"

/-- The lead-up to the error; an error without position, or before the input, has none. -/
def context (e : SyntaxError) : Option Text :=
  match e.position with
  | some (input, cursor) => if 0 ≤ cursor then some (leadUp input cursor.toNat) else none
  | none => none

/-- The message, with the place of the error where it is known. -/
def fullText (e : SyntaxError) : Text :=
  match e.context with
  | some context =>
    e.message ++ text " at position " ++ Decimal.integer e.cursor ++ text ": " ++ context
  | none => e.message

/-- The description of the error. A description ends before the first NUL of its text. -/
def describe (e : SyntaxError) : Text := e.fullText.untilNul

end SyntaxError

/-- How a call can fail. -/
inductive Fault
  | rejected (error : SyntaxError)
  | structural (message : Text)
  | invalidArgument (message : Text)
  | logic (message : Text)
  | runtime (message : Text)
  | outOfRange
deriving DecidableEq, Repr

namespace Fault

def custom (message : Text) : Fault := .rejected ⟨.custom message, none⟩

/-- The description of the fault, which ends before the first NUL of its text. -/
def describe : Fault → Text
  | rejected error => error.describe
  | structural message => message.untilNul
  | invalidArgument message => message.untilNul
  | logic message => message.untilNul
  | runtime message => message.untilNul
  | outOfRange => text "position out of range"

end Fault

end CommandTree
