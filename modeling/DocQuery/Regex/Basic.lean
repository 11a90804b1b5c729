import DocQuery.Regex.CharSet

/-!
# Regular expressions

A pattern is built from sets of characters and from anchors, which match between characters.
Whether a repetition prefers few or many rounds is of no account, since only the existence of
a match is asked for.
-/

namespace DocQuery

namespace Regex

/-- What holds between two characters. -/
inductive Anchor
  | textStart
  | textEnd
  /-- After a line break, or at the start; a carriage return may end lines as well. -/
  | lineStart (returns : Bool)
  /-- Before a line break, or at the end. -/
  | lineEnd (returns : Bool)
  /-- Between a member of a set and another character. -/
  | boundary (members : CharSet)
  | noBoundary (members : CharSet)
  /-- A member follows, and none goes before. -/
  | wordStart (members : CharSet)
  /-- A member goes before, and none follows. -/
  | wordEnd (members : CharSet)
  /-- No member goes before. -/
  | noWordBefore (members : CharSet)
  /-- No member follows. -/
  | noWordAfter (members : CharSet)
  deriving DecidableEq, Repr

end Regex

/-- A regular expression. -/
inductive Regex
  /-- Matches the empty text. -/
  | empty
  /-- Matches one character of a set. -/
  | one (set : Regex.CharSet)
  | anchor (anchor : Regex.Anchor)
  | sequence (first second : Regex)
  | either (first second : Regex)
  /-- Between `least` and `most` rounds, or any number from `least` on. -/
  | repeated (body : Regex) (least : Nat) (most : Option Nat)
  deriving DecidableEq, Repr

namespace Regex

/-- One after the other. -/
def sequenceAll : List Regex → Regex
  | [] => empty
  | [r] => r
  | r :: rest => sequence r (sequenceAll rest)

/-- One of several. -/
def eitherAll : List Regex → Regex
  | [] => empty
  | [r] => r
  | r :: rest => either r (eitherAll rest)

end Regex

end DocQuery
