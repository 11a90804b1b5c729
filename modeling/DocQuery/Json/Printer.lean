import DocQuery.Json.Basic
import DocQuery.Number.Binary64.Style

/-!
# JSON text

Values on one line without blanks, or with a line for every child, indented by two spaces.
-/

namespace DocQuery.Json

open Text Number

/-- One character of a string between quotes. -/
def stringChar (c : Char) : List Char :=
  if c = '"' || c = '\\' then ['\\', c]
  else if c = '\n' then ['\\', 'n']
  else if c = '\r' then ['\\', 'r']
  else if c = '\t' then ['\\', 't']
  else if c = '\x08' then ['\\', 'b']
  else if c = '\x0c' then ['\\', 'f']
  else if c < ' ' then '\\' :: 'u' :: Digits.fixed 16 4 c.toNat
  else [c]

/-- A string between quotes. -/
def writeString (content : String) : List Char :=
  '"' :: (content.toList.flatMap stringChar ++ ['"'])

/-- A line break and the indentation at a depth, in the pretty layout. -/
def lineBreak (pretty : Bool) (depth : Nat) : List Char :=
  if pretty then '\n' :: List.replicate (2 * depth) ' ' else []

/-- Written children between two brackets, at the depth of their container. -/
def enclose (pretty : Bool) (depth : Nat) (opening closing : Char) (children : List (List Char)) :
    List Char :=
  if children.isEmpty then [opening, closing]
  else
    opening ::
      ((',' :: lineBreak pretty (depth + 1)).intercalate
          (children.modifyHead (lineBreak pretty (depth + 1) ++ ·)) ++
        lineBreak pretty depth ++ [closing])

mutual

/-- A value at a depth. -/
def write (pretty : Bool) (depth : Nat) : Json → List Char
  | null => "null".toList
  | bool b => (if b then "true" else "false").toList
  | int n => Digits.ofInt n
  | float x => Binary64.Style.json.write x
  | string content => writeString content
  | array items => enclose pretty depth '[' ']' (writeItems pretty (depth + 1) items)
  | object members =>
    enclose pretty depth '\x7b' '\x7d' (writeMembers pretty (depth + 1) members)

/-- Items at a depth. -/
def writeItems (pretty : Bool) (depth : Nat) : List Json → List (List Char)
  | [] => []
  | item :: items => write pretty depth item :: writeItems pretty depth items

/-- Members at a depth. -/
def writeMembers (pretty : Bool) (depth : Nat) : List (String × Json) → List (List Char)
  | [] => []
  | (name, member) :: members =>
    (writeString name ++ ':' :: ((if pretty then [' '] else []) ++ write pretty depth member)) ::
      writeMembers pretty depth members

end

/-- The text of a value on one line. -/
def toText (j : Json) : String :=
  String.ofList (j.write false 0)

/-- The text of a value with a line for every child. -/
def toPrettyText (j : Json) : String :=
  String.ofList (j.write true 0)

end DocQuery.Json
