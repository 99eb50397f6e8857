import CommandTree.Proofs.Branching
import CommandTree.Proofs.ReadBack
import Mathlib

/-!
Lines made of a word and values in quotes. Below the word stand text arguments one after another,
and each takes the value at its place. Main statement: such a line is used up, and the command runs
once with exactly these values; only a last value that is empty is not reached, since nothing follows
the separator before it.
-/

namespace CommandTree

/-- Values in a row, each behind a separator, in quotes where they need them. -/
def Quoting.writeOut (values : List Text) : Text :=
  values.flatMap fun value => separator :: quoteIfRequired value

namespace Quoting

@[simp] theorem writeOut_nil : writeOut [] = [] := rfl

@[simp] theorem writeOut_cons (value : Text) (values : List Text) :
    writeOut (value :: values) = separator :: (quoteIfRequired value ++ writeOut values) := rfl

theorem writeOut_atGap (values : List Text) : (writeOut values).AtGap := by
  cases values with
  | nil => exact .inl rfl
  | cons value values => exact .inr ⟨_, rfl⟩

/-- There is something behind the first separator, unless all that follows is an empty value. -/
theorem writeOut_tail_eq_nil_iff {value : Text} {values : List Text} :
    quoteIfRequired value ++ writeOut values = [] ↔ value = [] ∧ values = [] := by
  rw [List.append_eq_nil_iff, quoteIfRequired_eq_nil_iff]
  cases values <;> simp

end Quoting

open Quoting

namespace Tree

variable {S C M : Type}

/-- Below a node stand text arguments one after another. Each is the only child of the one before it
and to be tried by anyone, and the last carries a command. -/
inductive Sequence (command : C) : Tree S C M → List Text → Prop
  | last {t : Tree S C M} (runs : t.command = some command) : Sequence command t []
  | argument {t c : Tree S C M} {name : Text} {names : List Text} {provider : Option (Provider S)}
      (only : t.children = [c])
      (kind : c.traits.kind =
        .argument name (BuiltIn.string .phrase).toArgumentType provider)
      (free : c.traits.requirement = none) (unconditional : c.traits.contextRequirement = none)
      (direct : c.redirect = none) (onwards : Sequence command c names) :
      Sequence command t (name :: names)

theorem usable_of_free {c : Tree S C M} (free : c.traits.requirement = none)
    (unconditional : c.traits.contextRequirement = none) (f : Frame S) (r : Reader) :
    c.Usable f r :=
  ⟨by rw [admits, free], fun p hp => absurd (unconditional.symm.trans hp) (by simp)⟩

/-- A single argument is tried whatever lies ahead. -/
theorem relevant_argument {t c : Tree S C M} (only : t.children = [c])
    (harg : c.isArgument = true) (r : Reader) : t.relevant r = [c] := by
  have hlit : c.isLiteral = false := by
    unfold isArgument at harg
    unfold isLiteral
    cases hk : c.traits.kind <;> simp [hk, Kind.isArgument, Kind.isLiteral] at harg ⊢
  have hword : (t.child? r.rest.token).filter isLiteral = none := by
    rw [Option.filter_eq_none_iff]
    intro d hd hdlit
    have hmem : d ∈ [c] := only ▸ List.mem_of_find?_eq_some hd
    rw [List.mem_singleton.mp hmem, hlit] at hdlit
    exact absurd hdlit (by decide)
  rw [relevant, hword, arguments, only]
  simp [harg]

/-- The argument at a reader has taken a text of some length. -/
def take (c : Tree S C M) (r : Reader) (name value : Text) (length : Nat) (s : Segment S C M) :
    Segment S C M :=
  { c.visit ⟨r.cursor, r.cursor + length⟩
      { s with frame := s.frame.bind name ⟨⟨r.cursor, r.cursor + length⟩, .string value⟩ } with
    command := c.command }

theorem find?_take (c : Tree S C M) (r : Reader) (name value : Text) (length : Nat)
    (s : Segment S C M) :
    (c.take r name value length s).frame.bindings.find? name =
      some ⟨⟨r.cursor, r.cursor + length⟩, .string value⟩ :=
  Bindings.find?_insert_self _ _ _

theorem find?_take_of_ne {name other : Text} (h : other ≠ name) (c : Tree S C M) (r : Reader)
    (value : Text) (length : Nat) (s : Segment S C M) :
    (c.take r name value length s).frame.bindings.find? other = s.frame.bindings.find? other :=
  Bindings.find?_insert_of_ne h _ _

/-- A text argument takes a value that was written out in front of it. -/
theorem attempt_text {c : Tree S C M} {name value tail : Text} {provider : Option (Provider S)}
    {r : Reader} (h0 : 0 ≤ r.cursor) (hl : r.cursor ≤ r.input.length)
    (kind : c.traits.kind = .argument name (BuiltIn.string .phrase).toArgumentType provider)
    (hr : r.rest = quoteIfRequired value ++ tail) (hgap : tail.AtGap) (s : Segment S C M) :
    c.attempt r s =
      .ok (c.take r name value (quoteIfRequired value).length s, (quoteIfRequired value).length) := by
  have hread : (BuiltIn.string .phrase).toArgumentType.parse r =
      (.ok (.string value), (quoteIfRequired value).length) := by
    show ((r.readString).1.map Value.string, (r.readString).2) = _
    rw [readString_quoteIfRequired h0 hl hgap hr]
    rfl
  have hinside := BuiltIn.staysInside (.string .phrase) r _ _ h0 hl hread
  have hrest : (r.advance (quoteIfRequired value).length).rest = tail := by
    rw [Reader.rest_advance h0, hr, List.drop_left]
  refine (attempt_argument_iff kind).mpr ⟨.string value, hread, ?_, rfl⟩
  exact Reader.atBoundary_of_gap (by rw [Reader.advance_cursor]; omega) hinside (hrest ▸ hgap)

end Tree

namespace Grammar

variable {S C M : Type} {g : Grammar S C M}

/-- Goes on below a node that matched, if there is anything to be read behind a separator. -/
def proceed (g : Grammar S C M) (c : Tree S C M) (r : Reader) (s : Segment S C M) :
    Except Fault (Parse S C M) :=
  if r.canRead 2 then g.parseAt c (r.advance 1) s else .ok ⟨⟨s, []⟩, r, []⟩

/-- Where a single child is tried and matches, the parse goes on below it. -/
theorem parseAt_single {t c : Tree S C M} {r : Reader} {s s' : Segment S C M} {n : Nat}
    (relevant : t.relevant r = [c]) (usable : c.Usable s.frame r)
    (matched : c.attempt r s = .ok (s', n)) (direct : c.redirect = none) :
    g.parseAt t r s = g.proceed c (r.advance n) s' := by
  rw [parseAt_eq, relevant, conclude_one, trial, Tree.eligible_iff.mpr usable]
  simp only [matched, onward, direct, proceed]
  by_cases hmore : (r.advance n).canRead 2 = true
  · rw [if_pos hmore, if_pos hmore]
    cases g.parseAt c ((r.advance n).advance 1) s' <;> rfl
  · rw [if_neg hmore, if_neg hmore]
    rfl

theorem canRead_two_iff {r : Reader} (h0 : 0 ≤ r.cursor) (hl : r.cursor ≤ r.input.length)
    {more : Text} (hr : r.rest = separator :: more) : r.canRead 2 = true ↔ more ≠ [] := by
  rw [Reader.canRead_iff h0 hl, hr, List.length_cons, ← List.length_pos_iff]
  omega

/-- One argument of a sequence: it takes the next value, and the parse goes on behind it. -/
theorem proceed_argument {t c : Tree S C M} {name value : Text} {values : List Text}
    {provider : Option (Provider S)} {r : Reader} (only : t.children = [c])
    (kind : c.traits.kind = .argument name (BuiltIn.string .phrase).toArgumentType provider)
    (free : c.traits.requirement = none) (unconditional : c.traits.contextRequirement = none)
    (direct : c.redirect = none) (h0 : 0 ≤ r.cursor) (hl : r.cursor ≤ r.input.length)
    (hr : r.rest = writeOut (value :: values)) (hne : ¬(value = [] ∧ values = []))
    (s : Segment S C M) :
    ∃ r', (0 ≤ r'.cursor ∧ r'.cursor ≤ r'.input.length) ∧ r'.rest = writeOut values ∧
      r'.advance r'.rest.length = r.advance r.rest.length ∧
      g.proceed t r s = g.proceed c r'
        (c.take (r.advance 1) name value (quoteIfRequired value).length s) := by
  have hcons : r.rest = [] ++ separator :: (quoteIfRequired value ++ writeOut values) := hr
  have hin := Reader.inside_behind h0 hl hcons
  rw [List.length_nil, Nat.zero_add] at hin
  have h0' := hin.1
  have hl' := hin.2
  have hmore : (r.advance 1).rest = quoteIfRequired value ++ writeOut values := by
    rw [Reader.rest_advance h0, hcons]
    rfl
  have hlen := Reader.length_rest h0' hl'
  have harg : c.isArgument = true := by rw [Tree.isArgument, kind]; rfl
  have htwo : r.canRead 2 = true :=
    (canRead_two_iff h0 hl hcons).mpr fun hnil => hne (writeOut_tail_eq_nil_iff.mp hnil)
  have hattempt := Tree.attempt_text h0' hl' kind hmore (writeOut_atGap values) s
  have hrest : ((r.advance 1).advance (quoteIfRequired value).length).rest = writeOut values := by
    rw [Reader.rest_advance h0', hmore, List.drop_left]
  refine ⟨(r.advance 1).advance (quoteIfRequired value).length, ?_, hrest, ?_, ?_⟩
  · rw [hmore, List.length_append] at hlen
    rw [Reader.advance_cursor, Reader.advance_input]
    omega
  · rw [hrest, hcons, Reader.advance_advance, Reader.advance_advance]
    congr 1
    simp
    omega
  · rw [proceed, if_pos htwo]
    exact parseAt_single (Tree.relevant_argument only harg _)
      (Tree.usable_of_free free unconditional _ _) hattempt direct

/-- Arguments one after another take the values that were written out for them, up to the end of the
line. -/
theorem proceed_takes {t : Tree S C M} {command : C} {names values : List Text} {r : Reader}
    {s : Segment S C M} (h : t.Sequence command names) (hcommand : s.command = t.command)
    (hcount : values.length = names.length) (hnames : names.Nodup) (h0 : 0 ≤ r.cursor)
    (hl : r.cursor ≤ r.input.length) (hr : r.rest = writeOut values)
    (hlast : values.getLast? ≠ some []) :
    ∃ s', g.proceed t r s = .ok ⟨⟨s', []⟩, r.advance r.rest.length, []⟩ ∧
      s'.command = some command ∧ s'.frame.source = s.frame.source ∧
      (∀ x ∈ names.zip values, s'.frame.askString x.1 = .ok x.2) ∧
      ∀ name, name ∉ names → s'.frame.bindings.find? name = s.frame.bindings.find? name := by
  induction h generalizing values r s with
  | last runs =>
    obtain rfl : values = [] := List.eq_nil_of_length_eq_zero hcount
    have hnil : r.rest = [] := hr
    have hstop : ¬ r.canRead 2 = true := by rw [Reader.canRead_iff h0 hl, hnil]; simp
    refine ⟨s, ?_, hcommand.trans runs, rfl, by simp, fun _ _ => rfl⟩
    rw [proceed, if_neg hstop, hnil, List.length_nil, Reader.advance_zero]
  | @argument t c name names provider only kind free unconditional direct onwards ih =>
    cases values with
    | nil => simp at hcount
    | cons value values =>
      obtain ⟨hfresh, hnames'⟩ := List.nodup_cons.mp hnames
      have hne : ¬(value = [] ∧ values = []) := by
        rintro ⟨rfl, rfl⟩
        exact hlast rfl
      obtain ⟨r', ⟨h0', hl'⟩, hr', hend, hstep⟩ := proceed_argument (g := g) only kind free
        unconditional direct h0 hl hr hne s
      have hlast' : values.getLast? ≠ some [] := by
        cases values with
        | nil => simp
        | cons v vs => simpa using hlast
      obtain ⟨s', hs', hcommand', hsource, hasks, hother⟩ := ih
        (s := c.take (r.advance 1) name value (quoteIfRequired value).length s) rfl
        (by simpa using hcount) hnames' h0' hl' hr' hlast'
      refine ⟨s', by rw [hstep, hs', hend], hcommand', hsource, ?_, ?_⟩
      · intro x hx
        rcases List.mem_cons.mp hx with rfl | hx
        · exact Frame.ask_ok_iff.mpr ⟨_, (hother name hfresh).trans (Tree.find?_take ..), rfl⟩
        · exact hasks x hx
      · intro other hmem
        obtain ⟨hneq, hmem'⟩ := not_or.mp (List.mem_cons.not.mp hmem)
        exact (hother other hmem').trans (Tree.find?_take_of_ne hneq ..)

/-- A last value that is empty leaves its separator over. -/
theorem proceed_stops {t : Tree S C M} {command : C} {names values : List Text} {r : Reader}
    {s : Segment S C M} (h : t.Sequence command names) (hcount : values.length = names.length)
    (h0 : 0 ≤ r.cursor) (hl : r.cursor ≤ r.input.length) (hr : r.rest = writeOut values)
    (hlast : values.getLast? = some []) :
    ∃ p, g.proceed t r s = .ok p ∧ p.isDone = false := by
  induction h generalizing values r s with
  | last =>
    obtain rfl : values = [] := List.eq_nil_of_length_eq_zero hcount
    simp at hlast
  | @argument t c name names provider only kind free unconditional direct onwards ih =>
    cases values with
    | nil => simp at hcount
    | cons value values =>
      by_cases hne : value = [] ∧ values = []
      · obtain ⟨rfl, rfl⟩ := hne
        have hsep : r.rest = [separator] := hr
        have hstop : ¬ r.canRead 2 = true := by simp [canRead_two_iff h0 hl hsep]
        refine ⟨_, by rw [proceed, if_neg hstop], ?_⟩
        simp [Parse.isDone, Reader.canRead_one_of_rest h0 hl hsep]
      · obtain ⟨r', ⟨h0', hl'⟩, hr', -, hstep⟩ := proceed_argument (g := g) only kind free
          unconditional direct h0 hl hr hne s
        have hlast' : values.getLast? = some [] := by
          cases values with
          | nil => exact absurd ⟨by simpa using hlast, rfl⟩ hne
          | cons v vs => simpa using hlast
        rw [hstep]
        exact ih (by simpa using hcount) h0' hl' hr' hlast'

/-- A line of a word and values in quotes where they need them: the parse uses it up, unless the last
value is empty; then every argument has its value, and the command runs once, with these. -/
theorem execute_quoted {c : Tree S C M} {command : C} {names : List Text} (values : List Text)
    (only : g.root.children = [c]) (word : c.IsWord) (free : c.traits.requirement = none)
    (direct : c.redirect = none) (sequence : c.Sequence command names) (distinct : names.Nodup)
    (count : values.length = names.length) (source : S) (acts : Actions S C M) :
    ∃ p, g.parse source (.ofText (c.name ++ writeOut values)) = .ok p ∧
      (p.isDone = true ↔ values.getLast? ≠ some []) ∧
      (values.getLast? ≠ some [] → p.chain.later = [] ∧
        (∀ x ∈ names.zip values, p.chain.first.frame.askString x.1 = .ok x.2) ∧
        ∃ context, context = p.chain.first.context (c.name ++ writeOut values) ∧
          context.source = source ∧
          (p.execute acts).1 =
            (acts.run command context).map (fun value => ⟨value, 1, false, []⟩) ∧
          calls (p.execute acts).2 = [(.inl command, context)]) := by
  let r : Reader := .ofText (c.name ++ writeOut values)
  have h0 : 0 ≤ r.cursor := Int.le_refl 0
  have hl : r.cursor ≤ r.input.length := Int.natCast_nonneg _
  have hr : r.rest = c.name ++ writeOut values := List.drop_zero
  have hgap := writeOut_atGap values
  have hrelevant : g.root.relevant r = [c] := by
    have hchild : g.root.child? r.rest.token = some c := by
      rw [hr, Text.token_append word.spaceless hgap, Tree.child?, only]
      simp
    rw [Tree.relevant_words (by simpa [only] using word), hchild, Option.toList_some]
  let s : Segment S C M := .start source (some g.root.id) r.cursor
  have hparse : g.parse source r = g.proceed c (r.advance c.name.length) (c.enter r s) :=
    parseAt_single hrelevant (Tree.usable_of_free free word.unconditional _ _)
      (word.attempt h0 hl hr hgap s) direct
  have h0' : 0 ≤ (r.advance c.name.length).cursor := by rw [Reader.advance_cursor]; omega
  have hl' : (r.advance c.name.length).cursor ≤ (r.advance c.name.length).input.length := by
    have hlen := Reader.length_rest h0 hl
    rw [hr, List.length_append] at hlen
    rw [Reader.advance_cursor, Reader.advance_input]
    omega
  have hr' : (r.advance c.name.length).rest = writeOut values := by
    rw [Reader.rest_advance h0, hr, List.drop_left]
  by_cases hlast : values.getLast? = some []
  · obtain ⟨p, hp, hdone⟩ := proceed_stops (g := g) (s := c.enter r s) sequence count h0' hl' hr'
      hlast
    exact ⟨p, hparse.trans hp, by simp [hdone, hlast], fun h => absurd hlast h⟩
  · obtain ⟨s', hs', hcommand, hsource, hasks, -⟩ := proceed_takes (g := g) (s := c.enter r s)
      sequence rfl count distinct h0' hl' hr' hlast
    have hspent : ((r.advance c.name.length).advance
        (r.advance c.name.length).rest.length).canRead 1 = false := by
      have hlen := Reader.length_rest h0' hl'
      rw [Reader.canRead, Reader.advance_cursor, Reader.advance_input]
      exact decide_eq_false (by omega)
    have hrun := Parse.execute_single acts [] hspent hcommand
    refine ⟨_, hparse.trans hs', ?_, fun _ => ⟨rfl, hasks, _, rfl, hsource, hrun.1, hrun.2⟩⟩
    exact iff_of_true (congrArg not hspent) hlast

/-- A text argument. -/
def phrase (id : NodeId) (name : Text) (command : Option Unit) (children : List (Tree Unit Unit Unit)) :
    Tree Unit Unit Unit :=
  .node id ⟨.argument name (BuiltIn.string .phrase).toArgumentType none, command, none, none, none,
    none, false⟩ children

/-- Whom to say something, and what. -/
def say : Tree Unit Unit Unit :=
  .node [1] ⟨.literal (text "say"), none, none, none, none, none, false⟩
    [phrase [2] (text "whom") none [phrase [3] (text "what") (some ()) []]]

def post : Grammar Unit Unit Unit := ⟨.node [0] (.ofKind .root) [say], .bare⟩

/-- The result is how much is said. -/
def postActions : Actions Unit Unit Unit where
  run _ context := (context.askString (text "what")).map fun said => .ofNat said.length
  derive _ _ := .ok []

theorem say_sequence : say.Sequence () [text "whom", text "what"] := by
  have hwhat : (phrase [2] (text "whom") none [phrase [3] (text "what") (some ()) []]).Sequence ()
      [text "what"] :=
    .argument (c := phrase [3] (text "what") (some ()) []) rfl rfl rfl rfl rfl (.last rfl)
  exact .argument rfl rfl rfl rfl rfl hwhat

/-- A quote, a backslash and a separator are among the values, and the first one is empty. -/
theorem execute_quoted_post :
    ∃ p, post.parse () (.ofText (text "say" ++ writeOut [[], text "\"a\\b c"])) = .ok p ∧
      p.isDone = true ∧ p.chain.first.frame.askString (text "what") = .ok (text "\"a\\b c") ∧
      (p.execute postActions).1 = .ok ⟨6, 1, false, []⟩ := by
  obtain ⟨p, hp, hdone, hruns⟩ := execute_quoted (g := post) [[], text "\"a\\b c"] rfl
    (by decide) rfl rfl say_sequence (by decide) rfl () postActions
  obtain ⟨-, hasks, context, rfl, -, hrun, -⟩ := hruns (by decide)
  have hsaid := hasks (text "what", text "\"a\\b c") (by decide)
  refine ⟨p, hp, hdone.mpr (by decide), hsaid, ?_⟩
  have hresult : postActions.run () (p.chain.first.context
      (text "say" ++ writeOut [[], text "\"a\\b c"])) = .ok 6 := by
    show (p.chain.first.frame.askString (text "what")).map _ = _
    rw [hsaid]
    rfl
  exact hrun.trans (congrArg _ hresult)

/-- An empty last value leaves a separator that nothing follows, and the line is refused. -/
theorem quoted_empty_last :
    (post.root.children = [say] ∧ say.IsWord ∧ say.Sequence () [text "whom", text "what"]) ∧
    ∃ p, post.parse () (.ofText (text "say" ++ writeOut [text "bob", []])) = .ok p ∧
      p.isDone = false ∧ p.chain.first.frame.has (text "what") = false ∧
      (p.execute postActions).1 =
        .error (.rejected ⟨.unknownArgument, some (text "say bob ", 7)⟩) := by
  have h : (post.parse () (.ofText (text "say" ++ writeOut [text "bob", []]))).map (fun p =>
      (p.isDone, p.chain.first.frame.has (text "what"), (p.execute postActions).1)) =
      .ok (false, false, .error (.rejected ⟨.unknownArgument, some (text "say bob ", 7)⟩)) := by
    cbv
  obtain ⟨p, hp, heq⟩ := map_eq_ok_iff.mp h
  simp only [Prod.mk.injEq] at heq
  exact ⟨⟨rfl, by decide, say_sequence⟩, p, hp, heq⟩

end Grammar

end CommandTree
