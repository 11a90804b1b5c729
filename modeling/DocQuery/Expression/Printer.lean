import DocQuery.Expression.Basic
import DocQuery.Path.Printer
import DocQuery.Value.Printer

/-!
# The text of expressions

Operations between two operands stand in parentheses, so their text needs no tiers. Constants
are written as values, and references as paths.
-/

namespace DocQuery

/-- The text of the path of a reference, after the sign of the candidate where it starts
there. -/
def Reference.writePath (r : Reference) : List Char :=
  let path := (r.path.map Path.write).getD []
  match r.origin with
  | .document => path
  | .candidate => '@' :: path

/-- The text of the path of a reference. -/
def Reference.pathText (r : Reference) : String :=
  String.ofList r.writePath

/-- The text of a reference. -/
def Reference.write (r : Reference) : List Char :=
  r.writePath ++ (if r.expected = .any then [] else " as ".toList ++ r.expected.name.toList)

namespace Expression

/-- The words of a test for membership. -/
def membershipKeyword (negated : Bool) : String :=
  if negated then "not in" else "in"

/-- The words of a test for a range. -/
def rangeKeyword (negated : Bool) : String :=
  if negated then "not between" else "between"

/-- An operation between two operands. -/
def writeBinary (symbol : String) (left right : List Char) : List Char :=
  '(' :: (left ++ ' ' :: (symbol.toList ++ ' ' :: (right ++ [')'])))

/-- Arguments in parentheses. -/
def writeArguments (arguments : List (List Char)) : List Char :=
  '(' :: ([',', ' '].intercalate arguments ++ [')'])

mutual

/-- The text of an expression. -/
def write : Expression → List Char
  | constant v => v.write .compact 0
  | now => "now".toList
  | reference r => r.write
  | key => ['#']
  | negation operand => "not ".toList ++ operand.write
  | existence r => "exists ".toList ++ r.write
  | kindTest r test negated =>
    r.write ++ (if negated then " is not " else " is ").toList ++ test.name.toList
  | arithmetic op left right => writeBinary op.symbol left.write right.write
  | relational op left right => writeBinary op.symbol left.write right.write
  | logical op left right => writeBinary op.symbol left.write right.write
  | temporal op left right => writeBinary op.symbol left.write right.write
  | membership subject candidates negated =>
    subject.write ++ ' ' :: ((membershipKeyword negated).toList ++
      ' ' :: writeArguments (writeAll candidates))
  | range subject lower upper negated =>
    subject.write ++ ' ' :: ((rangeKeyword negated).toList ++
      ' ' :: writeArguments [lower.write, upper.write])
  | matching op subject argument =>
    subject.write ++ ' ' :: (op.keyword.toList ++ ' ' :: argument.write)
  | concatenation arguments => "concat".toList ++ writeArguments (writeAll arguments)
  | annotationTest subject name => subject.write ++ " has annotation ".toList ++ name.write

/-- The texts of expressions. -/
def writeAll : List Expression → List (List Char)
  | [] => []
  | e :: rest => e.write :: writeAll rest

end

/-- The text of an expression. -/
def toText (e : Expression) : String :=
  String.ofList e.write

end Expression

end DocQuery
