/-!
# Grammars

A grammar gives each of its rules a pattern and a mode. Patterns choose in order and never
look back: the first alternative that matches is taken. The mode of a rule says whether it
leaves a node in the tree, and whether blanks may stand between the parts of its text.
-/

namespace DocQuery.Grammar

/-- The classes of characters that patterns name. -/
inductive CharClass
  /-- Every character. -/
  | any
  /-- ASCII digits. -/
  | digit
  /-- ASCII letters. -/
  | letter
  /-- Lower-case ASCII letters. -/
  | lower
  /-- ASCII letters and digits. -/
  | alphanumeric
  /-- The characters listed. -/
  | oneOf (members : List Char)
  /-- What belongs to either class. -/
  | either (left right : CharClass)
  deriving DecidableEq, Repr

/-- Whether a character belongs to a class. -/
def CharClass.contains : CharClass → Char → Bool
  | any, _ => true
  | digit, c => c.isDigit
  | letter, c => c.isAlpha
  | lower, c => c.isLower
  | alphanumeric, c => c.isAlphanum
  | oneOf members, c => members.contains c
  | either left right, c => left.contains c || right.contains c

/-- A pattern over the rules `ρ`. -/
inductive Pattern (ρ : Type)
  /-- These characters. -/
  | text (chars : List Char)
  /-- One character of a class. -/
  | one (members : CharClass)
  /-- Nothing, where the next character is not of a class. -/
  | absent (members : CharClass)
  /-- Nothing, at the start of the text. -/
  | start
  /-- Nothing, at the end of the text. -/
  | stop
  /-- What a rule matches. -/
  | rule (rule : ρ)
  /-- One pattern after the other. -/
  | seq (first second : Pattern ρ)
  /-- The first pattern, or else the second. -/
  | choice (first second : Pattern ρ)
  /-- A pattern, or nothing. -/
  | optional (body : Pattern ρ)
  /-- A pattern as many times as it matches. -/
  | star (body : Pattern ρ)
  deriving Repr

namespace Pattern

variable {ρ : Type}

/-- The characters of a string. -/
def lit (s : String) : Pattern ρ :=
  .text s.toList

/-- Patterns one after the other. -/
def inOrder : List (Pattern ρ) → Pattern ρ
  | [] => .text []
  | [p] => p
  | p :: rest => .seq p (inOrder rest)

/-- The first pattern that matches. -/
def firstOf : List (Pattern ρ) → Pattern ρ
  | [] => .seq .stop (.one .any)
  | [p] => p
  | p :: rest => .choice p (firstOf rest)

/-- A pattern at least once. -/
def plus (p : Pattern ρ) : Pattern ρ :=
  .seq p (.star p)

/-- A pattern exactly so many times. -/
def times (n : Nat) (p : Pattern ρ) : Pattern ρ :=
  inOrder (List.replicate n p)

end Pattern

/-- How a rule treats the tree and blanks. -/
inductive Mode
  /-- No node. -/
  | silent
  /-- A node; blanks between parts where the caller allows them. -/
  | normal
  /-- A node without children; no blanks within. -/
  | token
  /-- A node with children; no blanks within. -/
  | compound
  /-- A node; blanks between parts whatever the caller allows. -/
  | spaced
  deriving DecidableEq, Repr

/-- Rules with their modes and patterns, and the characters that are blanks. -/
structure Grammar (ρ : Type) where
  mode : ρ → Mode
  body : ρ → Pattern ρ
  blank : CharClass

end DocQuery.Grammar
