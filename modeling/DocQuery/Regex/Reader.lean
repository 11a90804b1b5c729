import DocQuery.Regex.Bracket

/-!
# Reading patterns

A pattern is read from left to right. What is open is kept as a stack of groups, each with its
finished branches and the parts of the branch that is being read.
-/

namespace DocQuery.Regex

/-- A group that is being read. -/
structure Level where
  /-- The modes in force at this place. -/
  modes : Modes
  /-- The finished branches, the last first. -/
  branches : List Regex
  /-- The parts of this branch, the last first. -/
  parts : List Regex
  /-- A repetition may follow. -/
  repeatable : Bool

namespace Level

/-- A group of which nothing has been read. -/
def start (modes : Modes) : Level := ⟨modes, [], [], false⟩

/-- Adds a part. -/
def push (level : Level) (r : Regex) : Level :=
  { level with parts := r :: level.parts, repeatable := true }

/-- Begins another branch. -/
def branch (level : Level) : Level :=
  { level with
    branches := sequenceAll level.parts.reverse :: level.branches, parts := []
    repeatable := false }

/-- The whole group. -/
def close (level : Level) : Regex :=
  eitherAll level.branch.branches.reverse

/-- Repeats the last part. -/
def repeat? (level : Level) (least : Nat) (most : Option Nat) : Option Level :=
  match level.repeatable, level.parts with
  | true, r :: parts => some { level with parts := repeated r least most :: parts }
  | _, _ => none

end Level

/-- What has been read of a pattern. -/
structure Reading where
  top : Level
  /-- The groups around, the innermost first. -/
  outer : List Level
  /-- The names of groups so far. -/
  names : List (List Char)

namespace Reading

/-- Nothing has been read. -/
def start : Reading := ⟨.start .initial, [], []⟩

/-- Adds a part to the innermost group. -/
def push (state : Reading) (r : Regex) : Reading :=
  { state with top := state.top.push r }

/-- Opens a group in which these modes are in force. -/
def openGroup (state : Reading) (modes : Modes) : Reading :=
  { state with top := .start modes, outer := state.top :: state.outer }

/-- Closes the innermost group, if one is open. -/
def closeGroup? (state : Reading) : Option Reading :=
  match state.outer with
  | [] => none
  | next :: outer => some { state with top := next.push state.top.close, outer := outer }

/-- Whether a character may stand at the start of a name. -/
def isNameStart (c : Char) : Bool :=
  c == '_' || Unicode.isLetter c || Unicode.Category.letterNumber.contains c

/-- Whether a character may stand in a name. -/
def isNamePart (c : Char) : Bool :=
  isNameStart c || ['.', '[', ']'].contains c || Unicode.isDigit c ||
    Unicode.Category.otherNumber.contains c

/-- Reads the name of a group up to its closing angle bracket, and opens the group. -/
def readName (state : Reading) (cs : List Char) : Option (Reading × List Char) := do
  let (name, rest) ← Atom.splitBefore? '>' cs
  guard ((name.head?.any isNameStart) && name.tail.all isNamePart &&
    !state.names.contains name)
  some ({ state with names := name :: state.names }.openGroup state.top.modes, rest)

/-- Reads what follows an opening parenthesis. -/
def readOpening (state : Reading) (cs : List Char) : Option (Reading × List Char) :=
  let modes := state.top.modes
  match modes.skip cs with
  | '?' :: '=' :: _ | '?' :: '!' :: _ | '?' :: '<' :: '=' :: _ | '?' :: '<' :: '!' :: _ => none
  | '?' :: 'P' :: '<' :: rest => state.readName rest
  | '?' :: '<' :: rest => state.readName rest
  | '?' :: rest => do
    match ← modes.readLetters [] true rest with
    | (changed, ':' :: after) => some (state.openGroup changed, after)
    | (changed, _ :: after) =>
      guard (rest.head? != some ')')
      some ({ state with top := { state.top with modes := changed, repeatable := false } }, after)
    | _ => none
  | rest => some (state.openGroup modes, rest)

/-- A number of rounds. -/
def readRounds (cs : List Char) : Option Nat := do
  let blankless := (cs.dropWhile Unicode.isSpace).reverse.dropWhile Unicode.isSpace
  guard (!blankless.isEmpty && blankless.all Char.isDigit)
  let n := Text.Digits.value blankless.reverse
  guard (n < 2 ^ 32)
  some n

/-- Reads how many rounds are asked for, behind the opening brace. -/
def readCount (modes : Modes) (cs : List Char) :
    Option (Nat × Option Nat × List Char) := do
  let (written, rest) ← Atom.splitBefore? '\x7d' cs
  let written := if modes.verbose then written.filter (!Unicode.isSpace ·) else written
  match written.span (· != ',') with
  | (exact, []) =>
    let n ← readRounds exact
    some (n, some n, rest)
  | (least, [_]) => some (← readRounds least, none, rest)
  | (least, _ :: most) =>
    let least ← readRounds least
    let most ← readRounds most
    guard (least ≤ most)
    some (least, some most, rest)

/-- Leaves out the sign after a repetition that says that few rounds are preferred. -/
def skipPreference : List Char → List Char
  | '?' :: rest => rest
  | rest => rest

/-- Repeats the last part. -/
def repeat? (state : Reading) (least : Nat) (most : Option Nat) (rest : List Char) :
    Option (Reading × List Char) := do
  some ({ state with top := ← state.top.repeat? least most }, skipPreference rest)

/-- Reads what a character begins. -/
def step (state : Reading) (c : Char) (rest : List Char) : Option (Reading × List Char) :=
  let modes := state.top.modes
  match c with
  | '(' => state.readOpening rest
  | ')' => state.closeGroup?.map (·, rest)
  | '|' => some ({ state with top := state.top.branch }, rest)
  | '[' => do
    let (s, rest) ← Bracket.read modes rest
    some (state.push (.one s), rest)
  | '?' => state.repeat? 0 (some 1) rest
  | '*' => state.repeat? 0 none rest
  | '+' => state.repeat? 1 none rest
  | '\x7b' => do
    let (least, most, rest) ← readCount modes rest
    state.repeat? least most (modes.skip rest)
  | '\\' => do
    match ← Atom.read modes rest with
    | (.literal c, rest) => some (state.push (.one (modes.literal c)), rest)
    | (.set s, rest) => some (state.push (.one s), rest)
    | (.anchor a, rest) => some (state.push (.anchor a), rest)
  | '.' => do some (state.push (.one (← modes.dot?)), rest)
  | '^' =>
    some (state.push (.anchor (if modes.multiLine then .lineStart modes.returns
      else .textStart)), rest)
  | '$' =>
    some (state.push (.anchor (if modes.multiLine then .lineEnd modes.returns
      else .textEnd)), rest)
  | c => some (state.push (.one (modes.literal c)), rest)

/-- The pattern, where no group is open any more. -/
def finish? (state : Reading) : Option Regex :=
  if state.outer.isEmpty then some state.top.close else none

/-- Reads a pattern to its end. Every step reads at least one character. -/
def run : Nat → Reading → List Char → Option Regex
  | 0, _, _ => none
  | fuel + 1, state, cs =>
    match state.top.modes.skip cs with
    | [] => state.finish?
    | c :: rest => do
      let (state, rest) ← state.step c rest
      run fuel state rest

end Reading

/-- Reads a pattern; none for what is no regular expression. -/
def read (pattern : String) : Option Regex :=
  Reading.run (pattern.toList.length + 1) .start pattern.toList

end DocQuery.Regex
