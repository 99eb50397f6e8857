import CommandTree.Scripted.Vocabulary

/-!
The written form of the scripted vocabulary: every entry is a list that begins with the word for
it. Reading gives nothing for a form that is no entry.
-/

namespace CommandTree.Scripted

inductive Form
  | nothing
  | number (n : Int)
  | text (t : Text)
  | list (items : List Form)

namespace Form

/-- The word at the head of a list, and what follows it. -/
def head? : Form → Option (String × List Form)
  | list (text t :: rest) => (String.fromUTF8? ⟨t.toArray⟩).map fun word => (word, rest)
  | _ => none

def number? : Form → Option Int
  | number n => some n
  | _ => none

def numbers? (forms : List Form) : Option (List Int) := forms.mapM number?

/-- A text that may be left out. -/
def tooltip : List Form → Option Text
  | text t :: _ => some t
  | _ => none

end Form

def Command.read? (form : Form) : Option Command :=
  match form.head? with
  | some ("return", [.number n]) => some (.constant n)
  | some ("void", []) => some .void
  | some ("source", []) => some .source
  | some ("int", [.text name]) => some (.integer name)
  | some ("add_source", [.text name]) => some (.addSource name)
  | some ("long", [.text name]) => some (.long name)
  | some ("bool", [.text name]) => some (.bool name)
  | some ("float_gt", [.text name, .text x]) =>
    some (.floatAbove name (Binary.ofNumeral (Numeral.read x) : Double).convert)
  | some ("double_gt", [.text name, .text x]) =>
    some (.doubleAbove name (Binary.ofNumeral (Numeral.read x)))
  | some ("strlen", [.text name]) => some (.length name)
  | some ("has", [.text name]) => some (.has name)
  | some ("depth", []) => some .depth
  | some ("throw", [.text message]) => some (.refuse message)
  | some ("throw_ctx", [.text message]) => some (.refuseHere message)
  | some ("throw_mod", [.number k, .number r, .text message]) => some (.refuseModulo k r message)
  | some ("runtime", [.text message]) => some (.runtimeFault message)
  | some ("runtime_if", [.number n, .text message]) => some (.runtimeFaultAt n message)
  | _ => none

def Modifier.read? (form : Form) : Option Modifier :=
  match form.head? with
  | some ("sources", [.list ns]) => (Form.numbers? ns).map .sources
  | some ("self", []) => some .same
  | some ("arg", [.text name]) => some (.argument name)
  | some ("affine", [.number k, .list es]) => (Form.numbers? es).map (.affine k)
  | some ("upto", [.text name]) => some (.upTo name)
  | some ("throw", [.text message]) => some (.refuse message)
  | some ("throw_if", [.number n, .text message, .list ns]) =>
    (Form.numbers? ns).map (.refuseAt n message)
  | some ("runtime", [.text message]) => some (.runtimeFault message)
  | _ => none

def SourceTest.read? (form : Form) : Option SourceTest :=
  match form.head? with
  | some ("always", []) => some .always
  | some ("never", []) => some .never
  | some ("gt", [.number n]) => some (.above n)
  | some ("lt", [.number n]) => some (.below n)
  | some ("eq", [.number n]) => some (.exactly n)
  | some ("mod", [.number k, .number r]) => some (.modulo k r)
  | some ("throw", [.text message]) => some (.refuse message)
  | _ => none

/-- A condition on a parse that has no conditions in it. -/
def ParseTest.simple? (form : Form) : Option ParseTest :=
  match form.head? with
  | some ("never", []) => some .never
  | some ("nodes", [.number n]) => some (.nodes n)
  | some ("peek_not", [.text [c]]) => some (.peekNot c)
  | some ("can_read", [.number n]) => some (.canRead n)
  | some ("cursor_lt", [.number n]) => some (.cursorBelow n)
  | some ("has_arg", [.text name]) => some (.has name)
  | some ("int_gt", [.text name, .number n]) => some (.integerAbove name n)
  | some ("source_gt", [.number n]) => some (.sourceAbove n)
  | some ("starts", [.text t]) => some (.starts t)
  | some ("throw", [.text message]) => some (.refuse message)
  | _ => none

mutual
def ParseTest.read? : Form → Option ParseTest
  | .list [.text word, .list forms] =>
    if word = text "and" then (ParseTest.readAll? forms).map .all else none
  | form => ParseTest.simple? form

def ParseTest.readAll? : List Form → Option (List ParseTest)
  | [] => some []
  | form :: rest =>
    match ParseTest.read? form, ParseTest.readAll? rest with
    | some test, some tests => some (test :: tests)
    | _, _ => none
end

/-- An offer that has no offers in it. -/
def Offer.simple? (form : Form) : Option Offer :=
  match form.head? with
  | some ("s", .text t :: rest) => some (.literal t (Form.tooltip rest))
  | some ("i", .number n :: rest) => some (.integer n (Form.tooltip rest))
  | some ("str_arg", [.text name]) => some (.textArgument name)
  | some ("int_arg", [.text name]) => some (.integerArgument name)
  | some ("source", []) => some .source
  | some ("nodes", []) => some .depth
  | some ("remaining", [.text t]) => some (.remaining t)
  | some ("lower", [.text t]) => some (.lower t)
  | some ("input", [.text t]) => some (.input t)
  | some ("throw", [.text message]) => some (.refuse message)
  | some ("runtime", [.text message]) => some (.runtimeFault message)
  | _ => none

mutual
def Offer.read? : Form → Option Offer
  | .list [.text word, .number delta, .list forms] =>
    if word = text "offset" then (Offer.readAll? forms).map (.offset delta) else none
  | form => Offer.simple? form

def Offer.readAll? : List Form → Option (List Offer)
  | [] => some []
  | form :: rest =>
    match Offer.read? form, Offer.readAll? rest with
    | some offer, some offers => some (offer :: offers)
    | _, _ => none
end

end CommandTree.Scripted
