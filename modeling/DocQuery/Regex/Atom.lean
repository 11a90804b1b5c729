import DocQuery.Regex.Modes

/-!
# Atoms of patterns

A backslash and what follows it stand for a character, a set of characters or an anchor.
-/

namespace DocQuery.Regex

/-- The smallest part of a pattern. -/
inductive Atom
  | literal (c : Char)
  | set (s : CharSet)
  | anchor (a : Anchor)
  deriving DecidableEq, Repr

/-- The characters that mean something by themselves. -/
def metaChars : List Char :=
  ['\\', '.', '+', '*', '?', '(', ')', '|', '[', ']', '\x7b', '\x7d', '^', '$', '#', '&', '-',
   '~']

/-- A text in which every character means itself. -/
def quote (cs : List Char) : List Char :=
  cs.flatMap fun c => if metaChars.contains c then ['\\', c] else [c]

/-- Whether a character other than those with a meaning of their own may follow a backslash
to stand for itself: ASCII without letters, digits and angle brackets. -/
def mayBeQuoted (c : Char) : Bool :=
  c.toNat < 128 && !c.isAlphanum && c != '<' && c != '>'

namespace Atom

open Text

/-- The character with a hexadecimal number. -/
def ofHex? (digits : List Char) : Option Char := do
  guard !digits.isEmpty
  let n ← Digits.hexNumber? digits
  if n.isValidChar then some (Char.ofNat n) else none

/-- Splits a text before a character; none if it does not occur. -/
def splitBefore? (mark : Char) (cs : List Char) : Option (List Char × List Char) :=
  match cs.dropWhile (· != mark) with
  | [] => none
  | _ :: rest => some (cs.takeWhile (· != mark), rest)

/-- Reads a hexadecimal number: so many digits, or any number of them between braces. -/
def readHex (modes : Modes) (count : Nat) (cs : List Char) : Option (Atom × List Char) :=
  match modes.skip cs with
  | '\x7b' :: rest => do
    let (digits, rest) ← splitBefore? '\x7d' rest
    some (literal (← ofHex? (digits.filter fun c => !(modes.verbose && Unicode.isSpace c))), rest)
  | rest => do
    guard (count ≤ rest.length)
    let c ← ofHex? (rest.take count)
    guard !(modes.ascii && count == 2 && 128 ≤ c.toNat)
    some (literal c, rest.drop count)

/-- The set of a property that is written as a name, or as a name, a sign and a value. -/
def propertySet? (name : List Char) : Option CharSet :=
  match name.span fun c => !(c == ':' || c == '=') with
  | (name, []) => CharSet.ofCategoryName? name
  | (name, _ :: value) =>
    let unequal := name.getLast? == some '!'
    let name := CharSet.normalizeName (if unequal then name.dropLast else name)
    if name = "gc".toList || name = "generalcategory".toList then
      (CharSet.ofCategoryName? value).map (CharSet.negateIf unequal)
    else none

/-- Reads the property of a class: one letter, or a name between braces. -/
def readProperty (modes : Modes) (negated : Bool) (cs : List Char) :
    Option (Atom × List Char) := do
  guard !modes.ascii
  let (name, rest) ← match modes.skip cs with
    | '\x7b' :: rest => splitBefore? '\x7d' rest
    | c :: rest => some ([c], rest)
    | [] => none
  let s ← propertySet? name
  some (set (CharSet.negateIf negated (modes.fold s)), rest)

/-- Reads what may follow a boundary: a word between braces that says which side is meant.
Braces around other things count rounds and are left. -/
def readBoundary (modes : Modes) (cs : List Char) : Option (Atom × List Char) :=
  let members := modes.wordSet
  let isNameChar (c : Char) := c.isAlpha || c == '-'
  match cs with
  | '\x7b' :: rest =>
    let rest := modes.skip rest
    if rest.head?.all isNameChar then
      match rest.span isNameChar with
      | (name, '\x7d' :: rest) =>
        match String.ofList name with
        | "start" => some (anchor (.wordStart members), rest)
        | "end" => some (anchor (.wordEnd members), rest)
        | "start-half" => some (anchor (.noWordBefore members), rest)
        | "end-half" => some (anchor (.noWordAfter members), rest)
        | _ => none
      | _ => none
    else some (anchor (.boundary members), cs)
  | _ => some (anchor (.boundary members), cs)

/-- Reads what follows a backslash. -/
def read (modes : Modes) : List Char → Option (Atom × List Char)
  | [] => none
  | c :: cs =>
    let shorthand (full ascii : CharSet) (negated : Bool) : Option (Atom × List Char) := do
      some (set (← modes.shorthand? full ascii negated), cs)
    if metaChars.contains c || mayBeQuoted c then some (literal c, cs)
    else match c with
      | 'x' => readHex modes 2 cs
      | 'u' => readHex modes 4 cs
      | 'U' => readHex modes 8 cs
      | 'p' => readProperty modes false cs
      | 'P' => readProperty modes true cs
      | 'd' => shorthand .digit .asciiDigit false
      | 'D' => shorthand .digit .asciiDigit true
      | 's' => shorthand .space .asciiSpace false
      | 'S' => shorthand .space .asciiSpace true
      | 'w' => shorthand .word .asciiWord false
      | 'W' => shorthand .word .asciiWord true
      | 'a' => some (literal '\x07', cs)
      | 'f' => some (literal '\x0c', cs)
      | 't' => some (literal '\t', cs)
      | 'n' => some (literal '\n', cs)
      | 'r' => some (literal '\r', cs)
      | 'v' => some (literal '\x0b', cs)
      | 'A' => some (anchor .textStart, cs)
      | 'z' => some (anchor .textEnd, cs)
      | 'b' => readBoundary modes cs
      | 'B' => some (anchor (.noBoundary modes.wordSet), cs)
      | '<' => some (anchor (.wordStart modes.wordSet), cs)
      | '>' => some (anchor (.wordEnd modes.wordSet), cs)
      | _ => none

end Atom

end DocQuery.Regex
