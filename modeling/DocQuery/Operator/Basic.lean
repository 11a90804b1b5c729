import DocQuery.Operator.Grouping

/-!
# Operators

The operators of expressions, by family. Binary operators stand between operands and are
ranked in tiers; the others follow their subject.
-/

namespace DocQuery

open Operator

/-- Operators on numbers; the first two also apply to times. -/
inductive ArithmeticOperator
  | add
  | subtract
  | multiply
  | divide
  | modulus
  | power
  deriving DecidableEq, Repr

/-- Operators that compare. -/
inductive RelationalOperator
  | equal
  | notEqual
  | greaterThan
  | lessThan
  | greaterOrEqual
  | lessOrEqual
  deriving DecidableEq, Repr

/-- Operators on truth values. -/
inductive LogicalOperator
  | and
  | or
  | xor
  | nor
  deriving DecidableEq, Repr

/-- Operators on timestamps and durations. -/
inductive TemporalOperator
  | add
  | subtract
  deriving DecidableEq, Repr

/-- Operators that stand between two operands. -/
inductive BinaryOperator
  | arithmetic (op : ArithmeticOperator)
  | relational (op : RelationalOperator)
  | logical (op : LogicalOperator)
  deriving DecidableEq, Repr

/-- Operators that match a text. -/
inductive MatchOperator
  | search
  | startsWith
  | endsWith
  | contains
  deriving DecidableEq, Repr

def ArithmeticOperator.symbol : ArithmeticOperator → String
  | add => "+"
  | subtract => "-"
  | multiply => "*"
  | divide => "/"
  | modulus => "%"
  | power => "^"

def RelationalOperator.symbol : RelationalOperator → String
  | equal => "=="
  | notEqual => "!="
  | greaterThan => ">"
  | lessThan => "<"
  | greaterOrEqual => ">="
  | lessOrEqual => "<="

/-- Whether operands in this order stand in the relation. -/
def RelationalOperator.holds : RelationalOperator → Ordering → Bool
  | equal, order => order == .eq
  | notEqual, order => order != .eq
  | greaterThan, order => order == .gt
  | lessThan, order => order == .lt
  | greaterOrEqual, order => order != .lt
  | lessOrEqual, order => order != .gt

def LogicalOperator.symbol : LogicalOperator → String
  | and => "and"
  | or => "or"
  | xor => "xor"
  | nor => "nor"

/-- The truth value that an operator gives. -/
def LogicalOperator.apply : LogicalOperator → Bool → Bool → Bool
  | and, a, b => a && b
  | or, a, b => a || b
  | xor, a, b => a != b
  | nor, a, b => !(a || b)

def TemporalOperator.symbol : TemporalOperator → String
  | add => "+"
  | subtract => "-"

/-- The operator on times with the same symbol. -/
def ArithmeticOperator.temporal? : ArithmeticOperator → Option TemporalOperator
  | add => some .add
  | subtract => some .subtract
  | _ => none

/-- The words of a match operator. -/
def MatchOperator.keyword : MatchOperator → String
  | search => "matches"
  | startsWith => "starts with"
  | endsWith => "ends with"
  | contains => "contains"

/-- Every match operator. -/
def MatchOperator.all : List MatchOperator :=
  [search, startsWith, endsWith, contains]

namespace BinaryOperator

def symbol : BinaryOperator → String
  | arithmetic op => op.symbol
  | relational op => op.symbol
  | logical op => op.symbol

/-- The tiers of binary operators, the tightest first. -/
def tiers : List (List BinaryOperator) :=
  [[arithmetic .power],
   [arithmetic .multiply, arithmetic .divide, arithmetic .modulus],
   [arithmetic .add, arithmetic .subtract],
   [relational .greaterThan, relational .lessThan, relational .greaterOrEqual,
    relational .lessOrEqual],
   [relational .equal, relational .notEqual],
   [logical .and],
   [logical .xor],
   [logical .nor],
   [logical .or]]

/-- Every binary operator, tier by tier. -/
def all : List BinaryOperator :=
  tiers.flatten

/-- Powers nest to the right, all else to the left. -/
def associativity : BinaryOperator → Associativity
  | arithmetic .power => .rightToLeft
  | _ => .leftToRight

/-- The operator with a symbol. -/
def ofSymbol? (symbol : String) : Option BinaryOperator :=
  all.find? (·.symbol == symbol)

/-- The tier of an operator. -/
def tier (op : BinaryOperator) : Nat :=
  tiers.findIdx (·.contains op)

end BinaryOperator

end DocQuery
