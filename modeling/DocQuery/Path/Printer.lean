import DocQuery.Path.Basic
import DocQuery.Text.Digits
import DocQuery.Text.Name

/-!
# The text of paths

A property is written as it is where it is a plain name, or a dollar sign with characters of
names, and between quotes elsewhere. Only quotes and backslashes are escaped there.
-/

namespace DocQuery

open Text

/-- Whether a property can be written without quotes. -/
def isPlainProperty : List Char → Bool
  | '$' :: rest => !rest.isEmpty && rest.all isNameChar
  | name => isName name

/-- One character of a property between quotes. -/
def propertyChar (c : Char) : List Char :=
  if c = '\\' || c = '\'' then ['\\', c] else [c]

/-- A property in a path. -/
def writeProperty (name : String) : List Char :=
  if isPlainProperty name.toList then name.toList
  else '\'' :: (name.toList.flatMap propertyChar ++ ['\''])

/-- A selector in a path. -/
def Selector.write : Selector → List Char
  | property none => ['*']
  | property (some name) => writeProperty name
  | item none => ['[', '*', ']']
  | item (some index) => '[' :: (Digits.ofNat index ++ [']'])

/-- The text of a selector. -/
def Selector.toText (s : Selector) : String :=
  String.ofList s.write

/-- A step with the slash before it. -/
def Step.write (s : Step) : List Char :=
  '/' :: (s.selector.write ++ (if s.required then [] else ['?']))

/-- The text of a path. -/
def Path.write (p : Path) : List Char :=
  p.steps.flatMap Step.write

/-- The text of a path. -/
def Path.toText (p : Path) : String :=
  String.ofList p.write

/-- The text of a key. -/
def Key.toText : Key → String
  | property name => name
  | item index => String.ofList (Digits.ofNat index)

end DocQuery
