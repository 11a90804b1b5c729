import DocQuery.Language.ParseError
import DocQuery.Number.Binary64.Literal
import DocQuery.Value.Basic

/-!
# Scalar literals

A literal in a value or an expression is a node of the syntax tree; its text and parts give
the scalar.
-/

namespace DocQuery

open DocQuery.Language Time

/-- The text of the first node directly below that came from a rule. -/
def Language.Tree.partText? (rule : Rule) (tree : Tree) : Option (List Char) :=
  (tree.children.find? (·.rule == rule)).map (·.text)

namespace Scalar

/-- The content of quoted text, without its escapes. -/
def readQuoted (sort : LiteralKind) (tree : Tree) : Except ParseError String :=
  let raw := tree.children.find? fun part =>
    part.rule == .stringContent || part.rule == .symbolContent
  match Text.Escape.unescape ((raw.map (·.text)).getD []) with
  | .ok content => .ok (String.ofList content)
  | .error fault => .error (.literal sort tree.text (.escape fault))

/-- A missing value of the kind that is named, or of no kind. -/
def readNull (tree : Tree) : Except ParseError Scalar :=
  match tree.partText? .typeName with
  | none => .ok (.null .null)
  | some name =>
    match Kind.ofName? (String.ofList name) with
    | some kind => .ok (.null kind)
    | none => .error (.literal .null tree.text .unknownKind)

/-- An int: digits after an optional minus sign. -/
def readInt : List Char → Int
  | '-' :: digits => -(Text.Digits.value digits : Int)
  | digits => Text.Digits.value digits

/-- The number of a part of a timestamp; `default` where the part is missing. -/
def partNumber (rule : Rule) (default : Nat) (tree : Tree) : Nat :=
  ((tree.partText? rule).map Text.Digits.value).getD default

/-- The parts of a timestamp; those that are missing are the least possible ones. -/
def timestampParts (tree : Tree) : Timestamp.Parts :=
  let clock := tree.children.find? (·.rule == .tsTime)
  { year := partNumber .tsYear 1 tree
    month := partNumber .tsMonth 1 tree
    day := partNumber .tsDay 1 tree
    hour := (clock.map (partNumber .tsHour 0)).getD 0
    minute := (clock.map (partNumber .tsMinute 0)).getD 0
    second := clock.bind (Tree.partText? .tsSecond)
    zone := tree.partText? .tsZone }

/-- The scalar of a literal. -/
def ofTree (tree : Tree) : Except ParseError Scalar :=
  match tree.rule with
  | .nullLiteral => readNull tree
  | .boolLiteral => .ok (.bool (tree.text == "true".toList))
  | .intLiteral => .ok (.int (readInt tree.text))
  | .floatLiteral => .ok (.float (Number.Binary64.read tree.text))
  | .decimalLiteral =>
    match Number.Decimal.read tree.text with
    | .ok d => .ok (.decimal d)
    | .error fault => .error (.literal .decimal tree.text (.decimal fault))
  | .dayTimestamp | .monthTimestamp | .yearTimestamp =>
    match Timestamp.ofParts (timestampParts tree) with
    | .ok t => .ok (.timestamp t)
    | .error fault => .error (.literal .timestamp tree.text (.timestamp fault))
  | .durationLiteral =>
    match Duration.read tree.text with
    | .ok d => .ok (.duration d)
    | .error fault => .error (.literal .duration tree.text (.duration fault))
  | .stringLiteral => return .text .string (← readQuoted .string tree)
  | .quotedSymbol => return .text .quotedSymbol (← readQuoted .symbol tree)
  | .identifier => .ok (.text .identifier (String.ofList tree.text))
  | _ => ParseError.unshaped tree "scalar"

end Scalar

end DocQuery
