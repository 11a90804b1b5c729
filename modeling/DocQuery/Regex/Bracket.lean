import DocQuery.Regex.Atom

/-!
# Classes between brackets

A class lists characters, ranges, named classes and further classes. Doubled signs combine
what goes before them with what follows, from the left.
-/

namespace DocQuery.Regex

/-- The operators between the parts of a class. -/
inductive SetOperator
  | intersection
  | difference
  | symmetricDifference
  deriving DecidableEq, Repr

/-- The set that an operator makes of two. -/
def SetOperator.apply : SetOperator → CharSet → CharSet → CharSet
  | intersection => .intersection
  | difference => CharSet.difference
  | symmetricDifference => CharSet.symmetricDifference

/-- A class that is not closed yet. -/
structure OpenClass where
  negated : Bool
  /-- Nothing but hyphens has been read so far. -/
  leading : Bool
  /-- The set before the last operator. -/
  pending : Option (SetOperator × CharSet)
  /-- What has been read since, the last first. -/
  members : List CharSet

namespace OpenClass

/-- Adds members. -/
def add (k : OpenClass) (s : CharSet) : OpenClass :=
  { k with leading := false, members := s :: k.members }

/-- Adds a hyphen at the start. -/
def addHyphen (k : OpenClass) : OpenClass :=
  { k with members := .single '-' :: k.members }

/-- What has been read. -/
def content (modes : Modes) (k : OpenClass) : CharSet :=
  let s := CharSet.unionAll k.members.reverse
  match k.pending with
  | none => s
  | some (op, before) => op.apply (modes.fold before) (modes.fold s)

/-- Goes on after an operator. -/
def operate (modes : Modes) (op : SetOperator) (k : OpenClass) : OpenClass :=
  { k with leading := false, pending := some (op, k.content modes), members := [] }

/-- Opens a class, behind the bracket. -/
def start (modes : Modes) (cs : List Char) : OpenClass × List Char :=
  match modes.skip cs with
  | '^' :: rest => (⟨true, true, none, []⟩, rest)
  | rest => (⟨false, true, none, []⟩, rest)

end OpenClass

namespace Bracket

/-- Whether a character may stand in a class of a mode. -/
def isAllowed (modes : Modes) (c : Char) : Bool :=
  !(modes.ascii && 128 ≤ c.toNat)

/-- The set that an atom adds to a class; anchors have none. -/
def atomSet? (modes : Modes) : Atom → Option CharSet
  | .literal c => if isAllowed modes c then some (.single c) else none
  | .set s => some s
  | .anchor _ => none

/-- Reads a character or what follows a backslash. -/
def readAtom (modes : Modes) : List Char → Option (Atom × List Char)
  | [] => none
  | '\\' :: rest => Atom.read modes rest
  | c :: rest => some (.literal c, rest)

/-- Reads an atom, or a range between two characters. A hyphen before a closing bracket or
another hyphen makes no range. -/
def readRange (modes : Modes) (cs : List Char) : Option (CharSet × List Char) := do
  let (first, rest) ← readAtom modes cs
  match modes.skip rest with
  | '-' :: rest =>
    match modes.skip rest with
    | [] => none
    | c :: after =>
      if c = ']' || c = '-' then some (← atomSet? modes first, '-' :: rest)
      else match first, ← readAtom modes (c :: after) with
        | .literal a, (.literal b, rest) =>
          if a ≤ b && isAllowed modes b then some (.range a b, rest) else none
        | _, _ => none
  | rest => some (← atomSet? modes first, rest)

/-- Reads a class named between colons, behind its opening bracket, and whether it is the
complement that is meant. -/
def readNamed : List Char → Option (Bool × CharSet × List Char)
  | ':' :: rest =>
    let (negated, rest) := match rest with
      | '^' :: rest => (true, rest)
      | rest => (false, rest)
    match rest.span (· != ':') with
    | (name, ':' :: ']' :: rest) =>
      (CharSet.ofPosixName? (String.ofList name)).map (negated, ·, rest)
    | _ => none
  | _ => none

/-- Reads classes up to the end of the outermost one that is open. -/
def readOpen (modes : Modes) :
    Nat → OpenClass → List OpenClass → List Char → Option (CharSet × List Char)
  | 0, _, _, _ => none
  | fuel + 1, top, outer, cs =>
    match modes.skip cs with
    | [] => none
    | '[' :: rest =>
      match readNamed rest with
      | some (negated, s, rest) => do
        readOpen modes fuel (top.add (← modes.bracketed? negated s)) outer rest
      | none =>
        let (inner, rest) := OpenClass.start modes rest
        readOpen modes fuel inner (top :: outer) rest
    | ']' :: rest =>
      -- A closing bracket right at the start is a member.
      if top.leading && top.members.isEmpty then
        readOpen modes fuel (top.add (.single ']')) outer rest
      else do
        let s ← modes.bracketed? top.negated (top.content modes)
        match outer with
        | [] => some (s, rest)
        | next :: outer => readOpen modes fuel (next.add s) outer rest
    | '&' :: '&' :: rest => readOpen modes fuel (top.operate modes .intersection) outer rest
    | '~' :: '~' :: rest =>
      readOpen modes fuel (top.operate modes .symmetricDifference) outer rest
    | c :: rest =>
      if c = '-' && top.leading then readOpen modes fuel top.addHyphen outer rest
      else if c = '-' && rest.head? = some '-' then
        readOpen modes fuel (top.operate modes .difference) outer rest.tail
      else do
        let (s, rest) ← readRange modes (c :: rest)
        readOpen modes fuel (top.add s) outer rest

/-- Reads a class, behind its opening bracket. -/
def read (modes : Modes) (cs : List Char) : Option (CharSet × List Char) :=
  let (top, rest) := OpenClass.start modes cs
  readOpen modes (cs.length + 1) top [] rest

end Bracket

end DocQuery.Regex
