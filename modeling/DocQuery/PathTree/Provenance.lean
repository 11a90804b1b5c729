import DocQuery.Text.Digits
import DocQuery.Value.Basic

/-!
# Provenance

A list that was cut down to some of its items says in an annotation which ones: a mark, and
the indices of the items in the list that they came from, with commas between them.
-/

namespace DocQuery.Provenance

open Text

/-- The mark that is used unless another one is chosen. -/
def defaultMark : String := "$indices:"

/-- An index, a number of 64 bits: digits, after a plus sign if there is one. -/
def readIndex? (text : List Char) : Option Nat :=
  let digits :=
    match text with
    | '+' :: rest => rest
    | rest => rest
  if digits.isEmpty || !digits.all Char.isDigit then none
  else if Digits.value digits < 2 ^ 64 then some (Digits.value digits)
  else none

/-- The parts of a text between commas. -/
def splitCommas (text : List Char) : List (List Char) :=
  text.foldr
    (fun c parts =>
      if c = ',' then [] :: parts
      else match parts with
        | part :: rest => (c :: part) :: rest
        | [] => [[c]])
    [[]]

/-- The indices that follow the mark. -/
def readIndices? (text : List Char) : Option (List Nat) :=
  if text.isEmpty then some [] else (splitCommas text).mapM readIndex?

/-- The annotation for indices. -/
def write (mark : String) (indices : List Nat) : String :=
  mark ++ String.ofList ([','].intercalate (indices.map Digits.ofNat))

/-- What follows the mark in an annotation that begins with it. -/
def afterMark? (mark name : String) : Option (List Char) :=
  if mark.toList.isPrefixOf name.toList then some (name.toList.drop mark.toList.length) else none

/-- The indices that annotations record; the first one with the mark counts. -/
def recorded? (mark : String) (annotations : List String) : Option (List Nat) :=
  (annotations.findSome? (afterMark? mark)).bind readIndices?

/-- Annotations with the record of indices, in place of any that there was. -/
def record (mark : String) (indices : List Nat) (annotations : List String) : List String :=
  annotations.filter (fun name => (afterMark? mark name).isNone) ++ [write mark indices]

end DocQuery.Provenance
