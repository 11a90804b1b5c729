/-!
# UTF-8

The bytes of a text, and the text of any bytes: where bytes are not well formed, each longest
start of a character that goes wrong, or else a single byte, shows as U+FFFD.
-/

namespace DocQuery.Text.Utf8

-- Sums start from the zero of the core library, whatever else is imported.
attribute [local instance (1100)] Zero.ofOfNat0

/-- The bytes of a text. -/
def encode (text : List Char) : List UInt8 :=
  text.flatMap String.utf8EncodeChar

/-- The number of bytes of a text. -/
def size (text : List Char) : Nat :=
  (text.map Char.utf8Size).sum

/-- What stands for bytes that are not well formed. -/
def replacement : Char := Char.ofNat 0xfffd

/-- A character whose first bytes have been read. -/
structure Pending where
  /-- How many bytes are still to come. -/
  owed : Nat
  /-- The bits read so far. -/
  code : Nat
  /-- The least value of the next byte. -/
  least : Nat
  /-- The greatest value of the next byte. -/
  greatest : Nat

/-- The character that a first byte opens; none for a byte that opens none. -/
def Pending.ofLead? (b : Nat) : Option Pending :=
  if 0xc2 ≤ b ∧ b ≤ 0xdf then some ⟨1, b - 0xc0, 0x80, 0xbf⟩
  else if b = 0xe0 then some ⟨2, 0, 0xa0, 0xbf⟩
  else if b = 0xed then some ⟨2, 0xd, 0x80, 0x9f⟩
  else if 0xe1 ≤ b ∧ b ≤ 0xef then some ⟨2, b - 0xe0, 0x80, 0xbf⟩
  else if b = 0xf0 then some ⟨3, 0, 0x90, 0xbf⟩
  else if 0xf1 ≤ b ∧ b ≤ 0xf3 then some ⟨3, b - 0xf0, 0x80, 0xbf⟩
  else if b = 0xf4 then some ⟨3, 4, 0x80, 0x8f⟩
  else none

/-- The characters that end at a byte read between characters, and what it leaves open. -/
def start (b : Nat) : List Char × Option Pending :=
  if b < 0x80 then ([Char.ofNat b], none)
  else match Pending.ofLead? b with
    | some p => ([], some p)
    | none => ([replacement], none)

/-- The characters that end at a byte, and what it leaves open. -/
def step (pending : Option Pending) (b : Nat) : List Char × Option Pending :=
  match pending with
  | none => start b
  | some p =>
    if p.least ≤ b ∧ b ≤ p.greatest then
      let code := p.code * 64 + (b - 0x80)
      if p.owed ≤ 1 then ([Char.ofNat code], none)
      else ([], some ⟨p.owed - 1, code, 0x80, 0xbf⟩)
    else
      let (ended, opened) := start b
      (replacement :: ended, opened)

/-- The text of the bytes after those that `pending` has read. -/
def decodeFrom (pending : Option Pending) : List UInt8 → List Char
  | [] => if pending.isSome then [replacement] else []
  | b :: rest =>
    let (ended, opened) := step pending b.toNat
    ended ++ decodeFrom opened rest

/-- The text of any bytes. -/
def decode (bytes : List UInt8) : List Char :=
  decodeFrom none bytes

end DocQuery.Text.Utf8
