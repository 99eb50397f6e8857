import CommandTree.Grammar

/-!
Usage lines: all lines that lead to a command, or one compact line for each child of a node. A
redirect ends a line and is shown by its target.
-/

namespace CommandTree

/-- The tokens around what is optional and around a choice, and between alternatives. -/
structure UsageFormat where
  optionalOpen : Text
  optionalClose : Text
  requiredOpen : Text
  requiredClose : Text
  alternative : Text
deriving DecidableEq, Repr

namespace UsageFormat

def standard : UsageFormat := ⟨text "[", text "]", text "(", text ")", text "|"⟩

/-- A text in the tokens for what is optional, where it is. -/
def wrap (u : UsageFormat) (isOptional : Bool) (t : Text) : Text :=
  if isOptional then u.optionalOpen ++ t ++ u.optionalClose else t

/-- A choice of texts, which may be optional as a whole. -/
def choice (u : UsageFormat) (isOptional : Bool) (ts : List Text) : Text :=
  let inner := u.alternative.intercalate ts
  if isOptional then u.optionalOpen ++ inner ++ u.optionalClose
  else u.requiredOpen ++ inner ++ u.requiredClose

end UsageFormat

namespace Grammar

variable {S C M : Type}

/-- Two parts of a line with a separator between them. -/
def beside (a b : Text) : Text := a ++ separator :: b

/-- How a redirect is shown: the root by dots, another target by an arrow. -/
def targetUsage (g : Grammar S C M) (target : NodeId) : Text :=
  if target = g.root.id then text "..." else text "-> " ++ (g.resolve target).usage

mutual
/-- The lines below a node that was reached by a line, in depth-first order. A restricted listing
leaves out what the source may not use. -/
def lines (g : Grammar S C M) (source : S) (restricted : Bool) (line : Text) :
    Tree S C M → Except Fault (List Text)
  | .node id traits cs =>
    let t : Tree S C M := .node id traits cs
    match if restricted then t.admits source else .ok true with
    | .error f => .error f
    | .ok false => .ok []
    | .ok true =>
      let own := if t.command.isSome then [line] else []
      match t.redirect with
      | some target =>
        .ok (own ++ [beside (if line.isEmpty then t.usage else line) (g.targetUsage target)])
      | none => (linesBelow g source restricted line cs).map (own ++ ·)

def linesBelow (g : Grammar S C M) (source : S) (restricted : Bool) (line : Text) :
    List (Tree S C M) → Except Fault (List Text)
  | [] => .ok []
  | c :: cs =>
    let next := if line.isEmpty then c.usage else beside line c.usage
    match lines g source restricted next c with
    | .error f => .error f
    | .ok ls => (linesBelow g source restricted line cs).map (ls ++ ·)
end

/-- Every line that leads from a node to a command. -/
def allUsage (g : Grammar S C M) (t : Tree S C M) (source : S) (restricted : Bool) :
    Except Fault (List Text) :=
  g.lines source restricted [] t

/-- The nodes of a list that a source may use. -/
def usable (source : S) : List (Tree S C M) → Except Fault (List (Tree S C M))
  | [] => .ok []
  | c :: cs =>
    match c.admits source with
    | .error f => .error f
    | .ok true => (usable source cs).map (c :: ·)
    | .ok false => usable source cs

mutual
/-- The compact line of a node that the source may use: itself, and what may follow it. A single
child that must follow is shown with what follows it in turn; of several only the first step is
shown. -/
def brief (g : Grammar S C M) (u : UsageFormat) (source : S) (isOptional : Bool) :
    Tree S C M → Except Fault Text
  | .node id traits cs =>
    let t : Tree S C M := .node id traits cs
    let self := u.wrap isOptional t.usage
    match t.redirect with
    | some target => .ok (beside self (g.targetUsage target))
    | none =>
      let mayEnd := t.command.isSome
      match usable source cs with
      | .error f => .error f
      | .ok [] => .ok self
      | .ok [only] =>
        if mayEnd then .ok (beside self (u.wrap true only.usage))
        else (briefOnly g u source cs).map (beside self)
      | .ok several =>
        match (several.map fun c => u.wrap mayEnd c.usage).eraseDups with
        | [same] => .ok (beside self (u.wrap mayEnd same))
        | _ => .ok (beside self (u.choice mayEnd (several.map Tree.usage)))

/-- The compact line of the first node of a list that the source may use. -/
def briefOnly (g : Grammar S C M) (u : UsageFormat) (source : S) :
    List (Tree S C M) → Except Fault Text
  | [] => .ok []
  | c :: cs =>
    match c.admits source with
    | .error f => .error f
    | .ok true => brief g u source false c
    | .ok false => briefOnly g u source cs
end

/-- One compact line for each node of a list that the source may use, beside the node. -/
def briefAll (g : Grammar S C M) (u : UsageFormat) (source : S) (isOptional : Bool) :
    List (Tree S C M) → Except Fault (List (Tree S C M × Text))
  | [] => .ok []
  | c :: cs =>
    match c.admits source with
    | .error f => .error f
    | .ok false => briefAll g u source isOptional cs
    | .ok true =>
      match g.brief u source isOptional c with
      | .error f => .error f
      | .ok line => (briefAll g u source isOptional cs).map ((c, line) :: ·)

/-- The compact lines of the children of a node. They are optional when the node has a command. -/
def smartUsage (g : Grammar S C M) (u : UsageFormat) (t : Tree S C M) (source : S) :
    Except Fault (List (Tree S C M × Text)) :=
  g.briefAll u source t.command.isSome t.children

end Grammar

end CommandTree
