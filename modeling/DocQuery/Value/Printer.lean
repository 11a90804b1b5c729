import DocQuery.Number.Binary64.Style
import DocQuery.Text.Base64
import DocQuery.Text.Escape
import DocQuery.Text.Name
import DocQuery.Text.Utf8
import DocQuery.Value.Basic

/-!
# The text of values

Values are written so that they read back: a decimal keeps its exponent mark, a symbol that is
no plain name is quoted, and annotations stand before the value, each with two colons. The
pretty layout puts every child on a line of its own.
-/

namespace DocQuery

open Text

/-- How values are laid out. -/
structure Layout where
  /-- Children stand on lines of their own, indented by two spaces. -/
  pretty : Bool
  /-- Annotations are written. -/
  annotated : Bool
  deriving DecidableEq, Repr

namespace Layout

/-- Everything on one line. -/
def compact : Layout := ⟨false, true⟩

/-- Everything on one line, without annotations. -/
def bare : Layout := ⟨false, false⟩

/-- A line for every child. -/
def indented : Layout := ⟨true, true⟩

end Layout

namespace Value

/-- Names that stand for something else where a value is expected. -/
def reserved : List (List Char) :=
  ["null".toList, "true".toList, "false".toList, "nan".toList, "now".toList]

/-- Text between quotes. -/
def writeQuoted (quote : Char) (text : List Char) : List Char :=
  quote :: (Escape.escape quote text ++ [quote])

/-- A symbol: as it is where it is a plain name that is not reserved, else between quotes. -/
def writeSymbol (text : String) : List Char :=
  if isName text.toList && !reserved.contains text.toList then text.toList
  else writeQuoted '\'' text.toList

/-- A text in its form. -/
def writeText (form : TextForm) (text : String) : List Char :=
  match form with
  | .string => writeQuoted '"' text.toList
  | .identifier => writeSymbol text
  | .quotedSymbol => writeQuoted '\'' text.toList

/-- The mark that opens bytes. -/
def openLob : List Char := ['\x7b', '\x7b']

/-- The mark that closes bytes. -/
def closeLob : List Char := ['\x7d', '\x7d']

/-- A scalar. -/
def writeScalar : Scalar → List Char
  | .null .null => "null".toList
  | .null kind => "null.".toList ++ kind.name.toList
  | .bool b => (if b then "true" else "false").toList
  | .int n => Digits.ofInt n
  | .float x => Number.Binary64.Style.value.write x
  | .decimal d => d.write ++ ['d', '0']
  | .timestamp t => t.write
  | .duration d => d.write
  | .text form text => writeText form text
  | .blob bytes => openLob ++ Base64.encode bytes ++ closeLob
  | .clob bytes => openLob ++ writeQuoted '"' (Utf8.decode bytes) ++ closeLob

/-- The annotations before a value. -/
def writeAnnotations (layout : Layout) (names : List String) : List Char :=
  if layout.annotated then names.flatMap fun name => writeSymbol name ++ [':', ':'] else []

/-- The indentation at a depth. -/
def indent (depth : Nat) : List Char :=
  List.replicate (2 * depth) ' '

/-- Written children between two brackets, at the depth of their container. -/
def enclose (layout : Layout) (depth : Nat) (opening closing : Char) (separator : List Char)
    (children : List (List Char)) : List Char :=
  if children.isEmpty then [opening, closing]
  else if layout.pretty then
    opening :: '\n' ::
      ((separator ++ ['\n']).intercalate (children.map (indent (depth + 1) ++ ·)) ++
        '\n' :: (indent depth ++ [closing]))
  else opening :: (separator.intercalate children ++ [closing])

/-- The items of a sequence between its brackets. Expressions in parentheses put a space
between items on one line, and nothing between items on lines of their own. -/
def encloseSequence (layout : Layout) (depth : Nat) :
    SequenceForm → List (List Char) → List Char
  | .list => enclose layout depth '[' ']' [',']
  | .sexp => enclose layout depth '(' ')' (if layout.pretty then [] else [' '])

mutual

/-- A value at a depth. -/
def write (layout : Layout) (depth : Nat) : Value → List Char
  | scalar names content => writeAnnotations layout names ++ writeScalar content
  | sequence names form items =>
    writeAnnotations layout names ++
      encloseSequence layout depth form (writeItems layout (depth + 1) items)
  | struct names fields =>
    writeAnnotations layout names ++
      enclose layout depth '\x7b' '\x7d' [','] (writeFields layout (depth + 1) fields)

/-- Items at a depth. -/
def writeItems (layout : Layout) (depth : Nat) : List Value → List (List Char)
  | [] => []
  | item :: items => write layout depth item :: writeItems layout depth items

/-- Fields at a depth. -/
def writeFields (layout : Layout) (depth : Nat) : List (String × Value) → List (List Char)
  | [] => []
  | (name, field) :: fields =>
    (writeSymbol name ++ ':' :: ((if layout.pretty then [' '] else []) ++ write layout depth field))
      :: writeFields layout depth fields

end

/-- The text of a value on one line. -/
def toText (v : Value) : String :=
  String.ofList (v.write .compact 0)

/-- The text of a value with a line for every child. -/
def toPrettyText (v : Value) : String :=
  String.ofList (v.write .indented 0)

/-- The text that a value contributes to a longer text: the content of a text, the digits of a
decimal, and the form without annotations of all else. -/
def canonicalText : Value → String
  | scalar _ (.text _ content) => content
  | scalar _ (.null _) => "null"
  | scalar _ (.decimal d) => String.ofList d.write
  | v => String.ofList (v.write .bare 0)

end Value

end DocQuery
