import DocQuery.Unicode.Class
import DocQuery.Unicode.Folding

/-!
# Sets of characters

The sets that a pattern can ask for: ranges, classes by name, and what arises from them by the
operations on sets and by ignoring case.
-/

namespace DocQuery.Regex

open Unicode

/-- A set of characters. -/
inductive CharSet
  | empty
  | any
  /-- The characters from the first to the last, both included. -/
  | range (first last : Char)
  | category (category : Category)
  | digit
  | space
  | word
  | complement (s : CharSet)
  | union (s t : CharSet)
  | intersection (s t : CharSet)
  /-- All characters that are equal up to case to a member. -/
  | folded (s : CharSet)
  /-- The members, and the other case of those that are ASCII letters. -/
  | asciiFolded (s : CharSet)
  deriving DecidableEq, Repr

/-- An ASCII letter in the other case. -/
def otherCase (c : Char) : Char :=
  if c.isUpper then c.toLower else c.toUpper

namespace CharSet

/-- Whether a character belongs to a set. -/
def contains : CharSet → Char → Bool
  | empty, _ => false
  | any, _ => true
  | range first last, c => first ≤ c && c ≤ last
  | category k, c => k.contains c
  | digit, c => isDigit c
  | space, c => isSpace c
  | word, c => isWord c
  | complement s, c => !s.contains c
  | union s t, c => s.contains c || t.contains c
  | intersection s t, c => s.contains c && t.contains c
  | folded s, c => (Folding.orbit c).any s.contains
  | asciiFolded s, c => s.contains c || s.contains (otherCase c)

/-- The set of one character. -/
def single (c : Char) : CharSet := range c c

/-- The set of two characters. -/
def pair (c d : Char) : CharSet := union (single c) (single d)

/-- The union of sets. -/
def unionAll : List CharSet → CharSet
  | [] => empty
  | s :: rest => rest.foldl union s

/-- The members of a set that do not belong to another. -/
def difference (s t : CharSet) : CharSet := intersection s (complement t)

/-- What belongs to one of two sets only. -/
def symmetricDifference (s t : CharSet) : CharSet :=
  union (difference s t) (difference t s)

/-- A set, or its complement. -/
def negateIf (negated : Bool) (s : CharSet) : CharSet :=
  if negated then complement s else s

/-- Whether a set has no members among the Latin characters beyond ASCII. -/
def isAscii (s : CharSet) : Bool :=
  (List.range 128).all fun n => !s.contains (Char.ofNat (128 + n))

def asciiDigit : CharSet := range '0' '9'

def asciiLower : CharSet := range 'a' 'z'

def asciiUpper : CharSet := range 'A' 'Z'

def asciiAlpha : CharSet := union asciiUpper asciiLower

def asciiAlphanumeric : CharSet := union asciiDigit asciiAlpha

def asciiWord : CharSet := union asciiAlphanumeric (single '_')

def asciiSpace : CharSet := union (range '\t' '\r') (single ' ')

/-- The ASCII class of a name that may stand between colons. -/
def ofPosixName? : String → Option CharSet
  | "alnum" => some asciiAlphanumeric
  | "alpha" => some asciiAlpha
  | "ascii" => some (range '\x00' '\x7f')
  | "blank" => some (pair '\t' ' ')
  | "cntrl" => some (union (range '\x00' '\x1f') (single '\x7f'))
  | "digit" => some asciiDigit
  | "graph" => some (range '!' '~')
  | "lower" => some asciiLower
  | "print" => some (range ' ' '~')
  | "punct" => some (unionAll [range '!' '/', range ':' '@', range '[' '\x60', range '\x7b' '~'])
  | "space" => some asciiSpace
  | "upper" => some asciiUpper
  | "word" => some asciiWord
  | "xdigit" => some (unionAll [asciiDigit, range 'A' 'F', range 'a' 'f'])
  | _ => none

/-- All members of some general categories. -/
def categories (ks : List Category) : CharSet :=
  unionAll (ks.map category)

/-- The assigned characters. -/
def assigned : CharSet := categories Category.all

/-- The groups of general categories, by their short and long names in lower case, without
the blanks, hyphens and underscores. -/
def categoryGroups : List (List String × CharSet) :=
  let group (initial : Char) : CharSet :=
    categories (Category.all.filter fun k => k.name.toList.head? == some initial)
  [(["l", "letter"], group 'L'),
   (["lc", "casedletter"], categories [.uppercaseLetter, .lowercaseLetter, .titlecaseLetter]),
   (["m", "mark", "combiningmark"], group 'M'),
   (["n", "number"], group 'N'),
   (["p", "punctuation", "punct"], group 'P'),
   (["s", "symbol"], group 'S'),
   (["z", "separator"], group 'Z'),
   (["c", "other"], union (group 'C') (complement assigned)),
   (["lu", "uppercaseletter"], category .uppercaseLetter),
   (["ll", "lowercaseletter"], category .lowercaseLetter),
   (["lt", "titlecaseletter"], category .titlecaseLetter),
   (["lm", "modifierletter"], category .modifierLetter),
   (["lo", "otherletter"], category .otherLetter),
   (["mn", "nonspacingmark"], category .nonspacingMark),
   (["mc", "spacingmark"], category .spacingMark),
   (["me", "enclosingmark"], category .enclosingMark),
   (["nd", "decimalnumber", "digit"], category .decimalNumber),
   (["nl", "letternumber"], category .letterNumber),
   (["no", "othernumber"], category .otherNumber),
   (["pc", "connectorpunctuation"], category .connectorPunctuation),
   (["pd", "dashpunctuation"], category .dashPunctuation),
   (["ps", "openpunctuation"], category .openPunctuation),
   (["pe", "closepunctuation"], category .closePunctuation),
   (["pi", "initialpunctuation"], category .initialPunctuation),
   (["pf", "finalpunctuation"], category .finalPunctuation),
   (["po", "otherpunctuation"], category .otherPunctuation),
   (["sm", "mathsymbol"], category .mathSymbol),
   (["sc", "currencysymbol"], category .currencySymbol),
   (["sk", "modifiersymbol"], category .modifierSymbol),
   (["so", "othersymbol"], category .otherSymbol),
   (["zs", "spaceseparator"], category .spaceSeparator),
   (["zl", "lineseparator"], category .lineSeparator),
   (["zp", "paragraphseparator"], category .paragraphSeparator),
   (["cc", "control", "cntrl"], category .control),
   (["cf", "format"], category .format),
   (["co", "privateuse"], category .privateUse),
   (["cn", "unassigned"], complement assigned),
   (["any"], any),
   (["ascii"], range '\x00' '\x7f'),
   (["assigned"], assigned)]

/-- The name of a class in lower case, without blanks, hyphens and underscores. -/
def normalizeName (name : List Char) : List Char :=
  let plain := (name.filter fun c => !(isSpace c || c == '_' || c == '-')).map Char.toLower
  match plain with
  | 'i' :: 's' :: rest => rest
  | _ => plain

/-- The set that a general category names. -/
def ofCategoryName? (name : List Char) : Option CharSet :=
  let wanted := String.ofList (normalizeName name)
  (categoryGroups.find? (·.1.contains wanted)).map Prod.snd

end CharSet

end DocQuery.Regex
