import DocQuery.Text.Digits

/-!
# Escapes in quoted text

`escape` writes arbitrary text so that it can stand between two quote characters, and
`unescape` reads such text back. Reading knows more escapes than writing uses.
-/

namespace DocQuery.Text

/-- The control characters: U+0000 to U+001F and U+007F to U+009F. -/
def isControl (c : Char) : Bool :=
  c.toNat < 0x20 || (0x7f ≤ c.toNat && c.toNat < 0xa0)

namespace Escape

/-- One character as it stands between quotes. -/
def escapeChar (quote c : Char) : List Char :=
  if c = quote then ['\\', c]
  else if c = '\\' then ['\\', '\\']
  else if c = '\n' then ['\\', 'n']
  else if c = '\r' then ['\\', 'r']
  else if c = '\t' then ['\\', 't']
  else if isControl c then '\\' :: 'u' :: Digits.fixed 16 4 c.toNat
  else [c]

/-- Text as it stands between two quotes. -/
def escape (quote : Char) (text : List Char) : List Char :=
  text.flatMap (escapeChar quote)

/-- Why escaped text cannot be read. -/
inductive BadEscape
  /-- The characters after `\u` are no hexadecimal number. -/
  | notHexadecimal (found : List Char)
  /-- The number after `\u` is no code point of a character. -/
  | notCharacter (code : Nat)
  /-- No escape has this letter. -/
  | unknown (letter : Char)
  /-- The text ends in a backslash. -/
  | dangling
  deriving DecidableEq, Repr

/-- What is wrong, in words. -/
def BadEscape.message : BadEscape → String
  | .notHexadecimal found => "bad unicode escape '\\u" ++ String.ofList found ++ "'"
  | .notCharacter code => "invalid code point 0x" ++ String.ofList (Nat.toDigits 16 code)
  | .unknown letter => "unknown escape '\\" ++ String.ofList [letter] ++ "'"
  | .dangling => "dangling escape"

/-- The character that a one-letter escape stands for. -/
def simple? : Char → Option Char
  | 'n' => some '\n'
  | 't' => some '\t'
  | 'r' => some '\r'
  | '0' => some '\x00'
  | '\\' => some '\\'
  | '"' => some '"'
  | '\'' => some '\''
  | '/' => some '/'
  | _ => none

/-- The number after `\u`: hexadecimal digits, after a plus sign if there is one. -/
def codeNumber? : List Char → Option Nat
  | [] => none
  | ['+'] => none
  | '+' :: digits => Digits.hexNumber? digits
  | digits => Digits.hexNumber? digits

/-- The character whose code follows `\u`. -/
def codePoint (found : List Char) : Except BadEscape Char :=
  match codeNumber? found with
  | none => .error (.notHexadecimal found)
  | some code =>
    if h : code.isValidChar then .ok (Char.ofNatAux code h) else .error (.notCharacter code)

/-- Reads escaped text. The code after `\u` has four characters, or fewer where the text
ends. -/
def unescape : List Char → Except BadEscape (List Char)
  | [] => .ok []
  | '\\' :: 'u' :: a :: b :: c :: d :: rest => do
    let ch ← codePoint [a, b, c, d]
    return ch :: (← unescape rest)
  | '\\' :: 'u' :: short => do return [← codePoint short]
  | ['\\'] => .error .dangling
  | '\\' :: letter :: rest =>
    match simple? letter with
    | some ch => do return ch :: (← unescape rest)
    | none => .error (.unknown letter)
  | ch :: rest => do return ch :: (← unescape rest)

end Escape

end DocQuery.Text
