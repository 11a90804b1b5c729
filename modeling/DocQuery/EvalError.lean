import DocQuery.Expression.StaticKind
import DocQuery.Path.Printer
import DocQuery.Value.Order
import DocQuery.Value.Printer

/-!
# Why an evaluation fails

Failures of path selection and of expressions. `Mismatch` gathers the cases in which a value
has a kind that an operation does not take.
-/

namespace DocQuery

open Number

/-- A value of a kind that an operation does not take. -/
inductive Mismatch
  /-- A selector on a container of another kind. -/
  | cannotSelect (selector : Selector) (container : Kind)
  /-- Values without a common order. -/
  | incomparable (cause : Incomparable)
  /-- A negation of what is no truth value. -/
  | negated (found : Value)
  /-- A logical operator on what is no truth value. -/
  | logical (found : Value)
  /-- Arithmetic or a sum of times between values that it does not combine. -/
  | cannotApply (op : ArithmeticOperator) (left right : Value)
  /-- A match on what is no text. -/
  | matching (op : MatchOperator) (subject argument : Value)
  /-- A concatenation that begins with what is no text. -/
  | concatenation (found : Value)
  /-- An annotation whose name is no text. -/
  | annotationName (found : Value)
  /-- A predicate that gives no truth value. -/
  | predicate (predicate : String) (found : Kind)

/-- What is wrong, in words. -/
def Mismatch.message : Mismatch → String
  | cannotSelect selector container =>
    selector.toText ++ " cannot select from " ++ container.name
  | incomparable cause => cause.message
  | negated found => "not expects bool, found " ++ found.describe
  | logical found => "logical operators expect bool, found " ++ found.describe
  | cannotApply op left right =>
    "cannot apply " ++ op.symbol ++ " to " ++ left.describe ++ " and " ++ right.describe
  | matching op subject argument =>
    op.keyword ++ " expects text operands, found " ++ subject.describe ++ " and " ++
      argument.describe
  | concatenation found => "concat expects text first, found " ++ found.describe
  | annotationName found => "has annotation expects text, found " ++ found.describe
  | predicate text found =>
    "predicate " ++ text ++ " produced " ++ found.name ++ " instead of bool"

/-- A result that is too large. -/
inductive Overflow
  /-- A power of ints with too many bits. -/
  | power (base exponent : Int)
  /-- A decimal outside its range. -/
  | decimal (op : ArithmeticOperator) (left right : Decimal)
  /-- A time outside its range. -/
  | temporal (left right : Value)

/-- The operation that overflowed, in words. -/
def Overflow.message : Overflow → String
  | power base exponent =>
    String.ofList (Text.Digits.ofInt base ++ " ^ ".toList ++ Text.Digits.ofInt exponent)
  | decimal op left right =>
    String.ofList (left.write ++ ' ' :: (op.symbol.toList ++ ' ' :: right.write))
  | temporal left right => left.describe ++ " " ++ right.describe

/-- Why an evaluation fails. -/
inductive EvalError
  | mismatch (cause : Mismatch)
  /-- A required step of a path finds nothing. -/
  | selectionMiss (path : String)
  /-- A path finds a value of another kind than is expected. -/
  | mismatchedSelection (path : String) (expected : StaticKind) (found : Kind)
  | divisionByZero
  | overflow (cause : Overflow)
  /-- A pattern that is no regular expression. -/
  | invalidPattern (pattern : String)
  /-- The candidate or its key outside of a predicate. -/
  | noCandidate (asked : String)

namespace EvalError

/-- What is wrong, in words. -/
def message : EvalError → String
  | mismatch cause => "type mismatch: " ++ cause.message
  | selectionMiss path => "no value selected at " ++ path
  | mismatchedSelection path expected found =>
    "expected " ++ expected.name ++ " at " ++ path ++ ", found " ++ found.name
  | divisionByZero => "division by zero"
  | overflow cause => "numeric overflow in " ++ cause.message
  | invalidPattern pattern => "invalid pattern '" ++ pattern ++ "'"
  | noCandidate asked => asked ++ " can only be used inside a path predicate"

/-- Whether a failure says that a path finds no fitting value. -/
def isSelectionFailure : EvalError → Bool
  | selectionMiss _ => true
  | mismatchedSelection _ _ _ => true
  | _ => false

end EvalError

end DocQuery
