/-!
# Kinds of values
-/

namespace DocQuery

/-- The fifteen kinds that a value can have. -/
inductive Kind
  | null
  | bool
  | int
  | float
  | decimal
  | timestamp
  | duration
  | string
  | identifier
  | quotedSymbol
  | blob
  | clob
  | list
  | sexp
  | struct
  deriving DecidableEq, Repr

namespace Kind

/-- Every kind, in the order in which kinds are listed. -/
def all : List Kind :=
  [null, bool, int, float, decimal, timestamp, duration, string, identifier, quotedSymbol, blob,
    clob, list, sexp, struct]

/-- The name of a kind, as it stands in `null.kind` and after `is`. -/
def name : Kind → String
  | null => "null"
  | bool => "bool"
  | int => "int"
  | float => "float"
  | decimal => "decimal"
  | timestamp => "timestamp"
  | duration => "duration"
  | string => "string"
  | identifier => "identifier"
  | quotedSymbol => "quoted_symbol"
  | blob => "blob"
  | clob => "clob"
  | list => "list"
  | sexp => "sexp"
  | struct => "struct"

/-- The kind with a name. -/
def ofName? (name : String) : Option Kind :=
  all.find? (·.name == name)

/-- Ints, floats and decimals. -/
def isNumeric : Kind → Bool
  | int | float | decimal => true
  | _ => false

/-- Strings and symbols. -/
def isText : Kind → Bool
  | string | identifier | quotedSymbol => true
  | _ => false

/-- Lists and expressions in parentheses. -/
def isSequence : Kind → Bool
  | list | sexp => true
  | _ => false

/-- Kinds whose values have children. -/
def isContainer (kind : Kind) : Bool :=
  kind.isSequence || kind == struct

theorem mem_all (kind : Kind) : kind ∈ all := by
  cases kind <;> decide

/-- Every kind is found under its name. -/
theorem ofName?_name (kind : Kind) : ofName? kind.name = some kind := by
  cases kind <;> decide

end Kind

end DocQuery
