import DocQuery.Unicode.Category

/-!
# Classes of characters

The classes that patterns and quoted text ask for, each from the general categories and a
short table of further members.
-/

namespace DocQuery.Unicode

open Category

/-- Letters of every kind. -/
def isLetter (c : Char) : Bool :=
  uppercaseLetter.contains c || lowercaseLetter.contains c || titlecaseLetter.contains c ||
    modifierLetter.contains c || otherLetter.contains c

/-- Decimal digits of every script. -/
def isDigit (c : Char) : Bool :=
  decimalNumber.contains c

/-- White space of every kind. -/
def isSpace (c : Char) : Bool :=
  ('\t' ≤ c && c ≤ '\r') || c == Char.ofNat 0x85 || spaceSeparator.contains c ||
    lineSeparator.contains c || paragraphSeparator.contains c

/-- Alphabetic symbols and joiners that belong to words besides letters, marks, digits and
connectors. -/
def wordExtras : List Range :=
  Ranges.ofText "200c-200d 24b6-24e9 1f130-1f149 1f150-1f169 1f170-1f189"

/-- The characters of which words consist. -/
def isWord (c : Char) : Bool :=
  c.isAlphanum || c == '_' || isLetter c || isDigit c || letterNumber.contains c ||
    nonspacingMark.contains c || spacingMark.contains c || enclosingMark.contains c ||
    connectorPunctuation.contains c || Ranges.contains wordExtras c

/-- Spacing marks and letters that extend the character before them as nonspacing marks do. -/
def extenderExtras : List Range :=
  Ranges.ofText <|
    "9be 9d7 b3e b57 bbe bd7 cc2 cd5-cd6 d3e d57 dcf ddf 1b35 302e-302f ff9e-ff9f 1133e " ++
    "11357 114b0 114bd 115af 11930 1d165 1d16e-1d172"

/-- The characters that attach to the one before them. -/
def isExtender (c : Char) : Bool :=
  nonspacingMark.contains c || enclosingMark.contains c || Ranges.contains extenderExtras c

/-- The categories whose members show as themselves. -/
def visibleCategories : List Category :=
  Category.all.filter fun k =>
    !([spaceSeparator, lineSeparator, paragraphSeparator, control, format, privateUse].contains k)

/-- Whether a character shows as itself: it is assigned, and no separator but the space, no
control and no format character. -/
def isVisible (c : Char) : Bool :=
  (' ' ≤ c && c ≤ '~') || visibleCategories.any (·.contains c)

end DocQuery.Unicode
