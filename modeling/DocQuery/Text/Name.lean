/-!
# Names

A name can be written without quotes: a letter or underscore, then letters, digits and
underscores, all of them ASCII.
-/

namespace DocQuery.Text

/-- The characters that begin a name. -/
def isNameStart (c : Char) : Bool :=
  c.isAlpha || c == '_'

/-- The characters of which names consist. -/
def isNameChar (c : Char) : Bool :=
  c.isAlphanum || c == '_'

/-- Whether a text is a name. -/
def isName : List Char → Bool
  | [] => false
  | c :: rest => isNameStart c && rest.all isNameChar

end DocQuery.Text
