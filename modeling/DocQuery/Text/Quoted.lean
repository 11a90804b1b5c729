import DocQuery.Text.Digits
import DocQuery.Unicode.Class

/-!
# Text shown between double quotes

`quoted` shows text so that every character can be told apart: what has no visible form of
its own, or would attach to its neighbour, is written as its code point in braces.
-/

namespace DocQuery.Text

/-- The code point of a character in braces, after `\u`. -/
def codePointInBraces (c : Char) : List Char :=
  '\\' :: 'u' :: '\x7b' :: (Nat.toDigits 16 c.toNat ++ ['\x7d'])

/-- One character as it is shown between double quotes. -/
def quotedChar (c : Char) : List Char :=
  if c = '\x00' then ['\\', '0']
  else if c = '\t' then ['\\', 't']
  else if c = '\r' then ['\\', 'r']
  else if c = '\n' then ['\\', 'n']
  else if c = '"' || c = '\\' then ['\\', c]
  else if Unicode.isVisible c && !Unicode.isExtender c then [c]
  else codePointInBraces c

/-- Text between double quotes. -/
def quoted (text : List Char) : List Char :=
  '"' :: (text.flatMap quotedChar ++ ['"'])

end DocQuery.Text
