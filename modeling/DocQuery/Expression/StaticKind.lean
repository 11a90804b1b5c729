import DocQuery.Operator.Basic
import DocQuery.Value.Numeric

/-!
# Static kinds

Every expression has a kind before it is evaluated. `any` says nothing about the value, and
`number` leaves the numeric kind open; missing values conform to every kind.
-/

namespace DocQuery

/-- The kind of an expression. -/
inductive StaticKind
  | any
  | bool
  | int
  | float
  | decimal
  | number
  | timestamp
  | duration
  | string
  deriving DecidableEq, Repr

namespace StaticKind

/-- Every static kind. -/
def all : List StaticKind :=
  [any, bool, int, float, decimal, number, timestamp, duration, string]

/-- The name of a kind, as it stands after `as`. -/
def name : StaticKind → String
  | any => "any"
  | bool => "bool"
  | int => "int"
  | float => "float"
  | decimal => "decimal"
  | number => "number"
  | timestamp => "timestamp"
  | duration => "duration"
  | string => "string"

/-- The kind with a name. -/
def ofName? (name : String) : Option StaticKind :=
  all.find? (·.name == name)

/-- The static kind of the values of a kind. -/
def ofKind : Kind → StaticKind
  | .bool => bool
  | .int => int
  | .float => float
  | .decimal => decimal
  | .timestamp => timestamp
  | .duration => duration
  | .string | .identifier | .quotedSymbol => string
  | _ => any

/-- Kinds of numbers. -/
def isNumeric : StaticKind → Bool
  | int | float | decimal | number => true
  | _ => false

/-- Kinds of times. -/
def isTemporal : StaticKind → Bool
  | timestamp | duration => true
  | _ => false

/-- Whether a value of this kind may be one of the kind that is wanted. -/
def accepts (kind wanted : StaticKind) : Bool :=
  kind == any || kind == wanted || (wanted == number && kind.isNumeric) ||
    (kind == number && wanted.isNumeric)

/-- The one kind of value that a numeric kind has, unless it is open. -/
def concrete? : StaticKind → Option Kind
  | int => some .int
  | float => some .float
  | decimal => some .decimal
  | _ => none

/-- The kind of an arithmetic result; none where an operand is no number. -/
def arithmetic (left right : StaticKind) : Option StaticKind :=
  if (left.isNumeric || left == any) && (right.isNumeric || right == any) then
    match left.concrete?, right.concrete? with
    | some a, some b => some (ofKind (Numeric.commonKind a b))
    | _, _ => some number
  else none

/-- The kind of a sum or difference with a time in it; none where there is no such sum. -/
def temporal : TemporalOperator → StaticKind → StaticKind → Option StaticKind
  | _, timestamp, duration => some timestamp
  | .add, timestamp, any => some timestamp
  | .subtract, timestamp, any => some any
  | .subtract, timestamp, timestamp => some duration
  | .subtract, any, timestamp => some duration
  | _, duration, duration => some duration
  | _, duration, any => some duration
  | _, any, duration => some any
  | _, _, _ => none

/-- Whether values of two kinds may have an order. -/
def comparable (left right : StaticKind) : Bool :=
  left == any || right == any || (left.isNumeric && right.isNumeric) || left == right

/-- Whether values of a kind conform to a static kind. -/
def admitsKind : StaticKind → Kind → Bool
  | any, _ => true
  | bool, kind => kind == .bool
  | int, kind => kind == .int
  | float, kind => kind == .float
  | decimal, kind => kind == .decimal
  | number, kind => kind.isNumeric
  | timestamp, kind => kind == .timestamp
  | duration, kind => kind == .duration
  | string, kind => kind.isText

/-- Whether a value conforms to a static kind; a missing one always does. -/
def admits (kind : StaticKind) (v : Value) : Bool :=
  v.isNull || kind.admitsKind v.kind

/-- The kind of a missing value of a static kind. -/
def nullKind : StaticKind → Kind
  | any => .null
  | bool => .bool
  | int => .int
  | float => .float
  | decimal | number => .decimal
  | timestamp => .timestamp
  | duration => .duration
  | string => .string

end StaticKind

/-- What stands after `is`. -/
inductive KindTest
  | exactly (kind : Kind)
  | number
  | text
  deriving DecidableEq, Repr

namespace KindTest

/-- The name of a test. -/
def name : KindTest → String
  | exactly kind => kind.name
  | number => "number"
  | text => "text"

/-- The test with a name. -/
def ofName? : String → Option KindTest
  | "number" => some number
  | "text" => some text
  | name => (Kind.ofName? name).map exactly

/-- Whether a value passes; a missing value passes the test for its own kind. -/
def passes (test : KindTest) (v : Value) : Bool :=
  match test with
  | exactly kind => v.kind == kind
  | number => v.kind.isNumeric
  | text => v.kind.isText

end KindTest

end DocQuery
