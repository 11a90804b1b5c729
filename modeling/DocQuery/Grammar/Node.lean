/-!
# Syntax trees

A node records the rule that matched, the text it covers and where that text begins. Lines
and columns count from one; a column is a character.
-/

namespace DocQuery.Grammar

/-- A place in a text. -/
structure Place where
  offset : Nat
  line : Nat
  column : Nat
  deriving DecidableEq, Repr

/-- The place where every text begins. -/
def Place.first : Place := ⟨0, 1, 1⟩

/-- The place after a character. -/
def Place.after (p : Place) (c : Char) : Place :=
  if c = '\n' then ⟨p.offset + 1, p.line + 1, 1⟩ else ⟨p.offset + 1, p.line, p.column + 1⟩

/-- What remains of a text, and where it begins. -/
structure Cursor where
  place : Place
  rest : List Char
  deriving DecidableEq, Repr

namespace Cursor

/-- The whole of a text. -/
def ofText (text : List Char) : Cursor :=
  ⟨.first, text⟩

/-- Passes over the characters for which `f` holds. -/
def skipWhile (f : Char → Bool) (place : Place) : List Char → Cursor
  | [] => ⟨place, []⟩
  | c :: rest => if f c then skipWhile f (place.after c) rest else ⟨place, c :: rest⟩

/-- Passes over the given characters, if they come next. -/
def skipText? : List Char → Place → List Char → Option Cursor
  | [], place, rest => some ⟨place, rest⟩
  | _ :: _, _, [] => none
  | t :: ts, place, c :: rest => if t = c then skipText? ts (place.after c) rest else none

/-- The text between two cursors of one text. -/
def upTo (start stop : Cursor) : List Char :=
  start.rest.take (stop.place.offset - start.place.offset)

end Cursor

/-- A node of a syntax tree. -/
inductive Node (ρ : Type)
  | mk (rule : ρ) (text : List Char) (place : Place) (children : List (Node ρ))
  deriving Repr

namespace Node

variable {ρ : Type}

/-- The rule that matched. -/
def rule : Node ρ → ρ
  | mk rule _ _ _ => rule

/-- The text that the node covers. -/
def text : Node ρ → List Char
  | mk _ text _ _ => text

/-- Where the node begins. -/
def place : Node ρ → Place
  | mk _ _ place _ => place

/-- The nodes directly below. -/
def children : Node ρ → List (Node ρ)
  | mk _ _ _ children => children

/-- The nodes directly below that came from a rule. -/
def childrenOf [BEq ρ] (rule : ρ) (node : Node ρ) : List (Node ρ) :=
  node.children.filter (·.rule == rule)

/-- The nodes reached by descending once for each test, in order. -/
def descend : List (Node ρ → Bool) → List (Node ρ) → List (Node ρ)
  | [], nodes => nodes
  | test :: tests, nodes => descend tests ((nodes.flatMap children).filter test)

end Node

end DocQuery.Grammar
