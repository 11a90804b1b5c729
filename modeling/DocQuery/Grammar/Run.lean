import DocQuery.Grammar.Pattern
import DocQuery.Grammar.Attempts

/-!
# Matching a text against a grammar

`Pattern.run` follows the structure of a pattern, `runRule` that of the calls between rules.
Rules may call each other to any depth; the depth is bounded by a count that grows with the
length of the text, and running out of it is told apart from failing to match.
-/

namespace DocQuery.Grammar

/-- What a rule allows within its text. -/
inductive Atomicity
  /-- Blanks may stand between parts. -/
  | loose
  /-- No blanks; rules within leave nodes. -/
  | compound
  /-- No blanks, and no nodes for rules within. -/
  | token
  deriving DecidableEq, Repr

/-- The surroundings of a pattern: what its callers allow, and whether the text of its own
rule is written with blanks in mind. -/
structure Context where
  atomicity : Atomicity
  spaced : Bool
  deriving DecidableEq, Repr

/-- The end of a run. -/
inductive Outcome (ρ : Type)
  | matched (cursor : Cursor) (nodes : List (Node ρ))
  | failed
  /-- The bound on nested rules was reached. -/
  | exhausted
  deriving Repr

/-- The outcome of a run with the attempts made up to then. -/
abbrev Run (ρ : Type) := Outcome ρ × Attempts ρ

/-- A way to go on from a cursor. -/
abbrev Runner (ρ : Type) := Cursor → Attempts ρ → Run ρ

variable {ρ : Type}

/-- Goes on after a match, with the nodes matched so far. -/
def Run.andThen (r : Run ρ) (next : Cursor → List (Node ρ) → Attempts ρ → Run ρ) : Run ρ :=
  match r with
  | (.matched cursor nodes, attempts) => next cursor nodes attempts
  | (.failed, attempts) => (.failed, attempts)
  | (.exhausted, attempts) => (.exhausted, attempts)

/-- Goes on after a failure. -/
def Run.orElse (r : Run ρ) (next : Attempts ρ → Run ρ) : Run ρ :=
  match r with
  | (.failed, attempts) => next attempts
  | found => found

/-- Passes over blanks where the surroundings allow them. -/
def Context.skip (context : Context) (blank : CharClass) (cursor : Cursor) : Cursor :=
  if context.spaced && context.atomicity == .loose then
    Cursor.skipWhile blank.contains cursor.place cursor.rest
  else cursor

/-- Repeats a step while it matches, at most so many times; `skip` passes over blanks before
each step, and blanks before a step that fails are given back. -/
def iterate (step : Runner ρ) (skip : Cursor → Cursor) :
    Nat → Cursor → List (Node ρ) → Attempts ρ → Run ρ
  | 0, _, _, attempts => (.exhausted, attempts)
  | fuel + 1, cursor, nodes, attempts =>
    match step (skip cursor) attempts with
    | (.matched next more, attempts) => iterate step skip fuel next (nodes ++ more) attempts
    | (.failed, attempts) => (.matched cursor nodes, attempts)
    | (.exhausted, attempts) => (.exhausted, attempts)

/-- Matches a pattern; `call` matches a rule. -/
def Pattern.run (blank : CharClass) (context : Context) (call : ρ → Runner ρ) :
    Pattern ρ → Runner ρ
  | .text chars, cursor, attempts =>
    match Cursor.skipText? chars cursor.place cursor.rest with
    | some next => (.matched next [], attempts)
    | none => (.failed, attempts)
  | .one members, cursor, attempts =>
    match cursor.rest with
    | c :: rest =>
      if members.contains c then (.matched ⟨cursor.place.after c, rest⟩ [], attempts)
      else (.failed, attempts)
    | [] => (.failed, attempts)
  | .absent members, cursor, attempts =>
    match cursor.rest with
    | c :: _ => if members.contains c then (.failed, attempts) else (.matched cursor [], attempts)
    | [] => (.matched cursor [], attempts)
  | .start, cursor, attempts =>
    if cursor.place.offset = 0 then (.matched cursor [], attempts) else (.failed, attempts)
  | .stop, cursor, attempts =>
    if cursor.rest.isEmpty then (.matched cursor [], attempts) else (.failed, attempts)
  | .rule r, cursor, attempts => call r cursor attempts
  | .seq first second, cursor, attempts =>
    (first.run blank context call cursor attempts).andThen fun next nodes attempts =>
      (second.run blank context call (context.skip blank next) attempts).andThen
        fun last more attempts => (.matched last (nodes ++ more), attempts)
  | .choice first second, cursor, attempts =>
    (first.run blank context call cursor attempts).orElse fun attempts =>
      second.run blank context call cursor attempts
  | .optional body, cursor, attempts =>
    (body.run blank context call cursor attempts).orElse fun attempts =>
      (.matched cursor [], attempts)
  | .star body, cursor, attempts =>
    -- No blanks before the first round: passing over them is up to the sequence around.
    ((body.run blank context call cursor attempts).andThen fun next nodes attempts =>
      iterate (body.run blank context call) (context.skip blank) (next.rest.length + 1) next nodes
        attempts).orElse fun attempts => (.matched cursor [], attempts)

/-- Runs the body of a rule that leaves a node unless a token is being matched, and that is put
on record when it fails. -/
def tracked (outer : Atomicity) (rule : ρ) (body : Runner ρ) : Runner ρ :=
  fun cursor attempts =>
    let before := attempts.countAt cursor.place
    match body cursor attempts with
    | (.matched next nodes, attempts) =>
      -- A rule within a token only matches text; its nodes are those of rules further in.
      if outer = .token then (.matched next nodes, attempts)
      else (.matched next [.mk rule (cursor.upTo next) cursor.place nodes], attempts)
    | (.failed, attempts) =>
      (.failed, if outer = .token then attempts else attempts.fail rule cursor.place before)
    | (.exhausted, attempts) => (.exhausted, attempts)

/-- Matches a rule whose caller allows `outer`; rules nest at most `fuel` deep. -/
def runRule (g : Grammar ρ) : Nat → Atomicity → ρ → Runner ρ
  | 0, _, _ => fun _ attempts => (.exhausted, attempts)
  | fuel + 1, outer, rule =>
    let body (atomicity : Atomicity) (spaced : Bool) : Runner ρ :=
      (g.body rule).run g.blank ⟨atomicity, spaced⟩ (runRule g fuel atomicity)
    match g.mode rule with
    | .silent => body outer true
    | .normal => tracked outer rule (body outer true)
    | .token => tracked outer rule (body .token false)
    | .compound => tracked .compound rule (body .compound false)
    | .spaced => tracked .loose rule (body .loose true)

/-- How deep rules may nest in a text of the given length: between two characters far fewer
rules than this can be entered. -/
def depthBound (length : Nat) : Nat :=
  64 * (length + 1)

/-- Matches a text from its start with a rule. -/
def Grammar.parse (g : Grammar ρ) (rule : ρ) (text : List Char) : Run ρ :=
  runRule g (depthBound text.length) .loose rule (.ofText text) .none

end DocQuery.Grammar
