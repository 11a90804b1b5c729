import DocQuery.Regex.Basic

/-!
# Modes of patterns

Modes change what the same characters of a pattern mean. They are set by letters in a group,
from there to the end of the group around.
-/

namespace DocQuery.Regex

/-- The modes in force at a place of a pattern. -/
structure Modes where
  /-- Characters stand for both of their cases. -/
  ignoreCase : Bool
  /-- The start and the end of a line match as those of the text. -/
  multiLine : Bool
  /-- A point matches line breaks as well. -/
  dotAll : Bool
  /-- A carriage return ends lines as well. -/
  returns : Bool
  /-- Classes hold ASCII characters only. -/
  ascii : Bool
  /-- White space and comments in the pattern mean nothing. -/
  verbose : Bool
  deriving DecidableEq, Repr

namespace Modes

/-- The modes at the start of a pattern. -/
def initial : Modes := ⟨false, false, false, false, false, false⟩

/-- The modes after a letter has been set or unset; none for an unknown letter. -/
def set? (modes : Modes) (letter : Char) (on : Bool) : Option Modes :=
  match letter with
  | 'i' => some { modes with ignoreCase := on }
  | 'm' => some { modes with multiLine := on }
  | 's' => some { modes with dotAll := on }
  | 'R' => some { modes with returns := on }
  | 'u' => some { modes with ascii := !on }
  | 'x' => some { modes with verbose := on }
  | 'U' => some modes
  | _ => none

/-- Reads letters up to a colon or a closing parenthesis, which is left. No letter may come
twice, and a hyphen, after which letters unset, needs a letter behind it. -/
def readLetters (modes : Modes) (seen : List Char) (on : Bool) :
    List Char → Option (Modes × List Char)
  | [] => none
  | c :: cs =>
    if c = ':' || c = ')' then
      if seen.head? = some '-' then none else some (modes, c :: cs)
    else if seen.contains c then none
    else if c = '-' then readLetters modes (c :: seen) false cs
    else do readLetters (← modes.set? c on) (c :: seen) on cs

/-- Text without the white space and comments at its start; `inComment` says whether it
starts inside of a comment. -/
def skipBlanks : Bool → List Char → List Char
  | _, [] => []
  | true, c :: cs => skipBlanks (c != '\n') cs
  | false, c :: cs =>
    if c = '#' then skipBlanks true cs
    else if Unicode.isSpace c then skipBlanks false cs
    else c :: cs

/-- Leaves out what means nothing. -/
def skip (modes : Modes) (cs : List Char) : List Char :=
  if modes.verbose then skipBlanks false cs else cs

/-- A set with the other cases of its members where case is ignored. -/
def fold (modes : Modes) (s : CharSet) : CharSet :=
  if modes.ignoreCase then if modes.ascii then .asciiFolded s else .folded s else s

/-- The set of one character, with its other cases where case is ignored. -/
def literal (modes : Modes) (c : Char) : CharSet :=
  modes.fold (.single c)

/-- A class of which the ASCII part may be asked for, or its complement. The complement of an
ASCII class is refused, since it cuts characters into bytes. -/
def shorthand? (modes : Modes) (full ascii : CharSet) (negated : Bool) : Option CharSet :=
  if modes.ascii then if negated then none else some ascii
  else some (CharSet.negateIf negated full)

/-- What a point matches; none in ASCII mode, where it would cut characters into bytes. -/
def dot? (modes : Modes) : Option CharSet :=
  if modes.ascii then none
  else if modes.dotAll then some .any
  else if modes.returns then some (.complement (.pair '\n' '\r'))
  else some (.complement (.single '\n'))

/-- The characters of which words consist. -/
def wordSet (modes : Modes) : CharSet :=
  if modes.ascii then .asciiWord else .word

/-- A set after brackets: ignoring case comes before the complement. In ASCII mode the result
must not reach beyond ASCII. -/
def bracketed? (modes : Modes) (negated : Bool) (s : CharSet) : Option CharSet :=
  let result := CharSet.negateIf negated (modes.fold s)
  if modes.ascii && !result.isAscii then none else some result

end Modes

end DocQuery.Regex
