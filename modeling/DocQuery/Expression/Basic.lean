import DocQuery.Expression.StaticKind
import DocQuery.Path.Basic

/-!
# Expressions

An expression computes a value from a document and, inside of a predicate, from a candidate
and its key. Its static kind follows from its parts.
-/

namespace DocQuery

/-- Where a reference starts. -/
inductive Origin
  | document
  /-- The candidate of a predicate. -/
  | candidate
  deriving DecidableEq, Repr

/-- A part of the document or of the candidate. -/
structure Reference where
  origin : Origin
  /-- The way to the part; none for all of it. -/
  path : Option Path
  /-- The kind that the part has to have. -/
  expected : StaticKind
  deriving DecidableEq, Repr

/-- An expression. -/
inductive Expression
  | constant (v : Value)
  /-- The time of the evaluation. -/
  | now
  | reference (r : Reference)
  /-- The key of the candidate. -/
  | key
  | negation (operand : Expression)
  /-- Whether a reference leads to a value of its kind. -/
  | existence (r : Reference)
  | kindTest (r : Reference) (test : KindTest) (negated : Bool)
  | arithmetic (op : ArithmeticOperator) (left right : Expression)
  | relational (op : RelationalOperator) (left right : Expression)
  | logical (op : LogicalOperator) (left right : Expression)
  /-- A sum or a difference with times. -/
  | temporal (op : TemporalOperator) (left right : Expression)
  /-- Whether a value equals one of several. -/
  | membership (subject : Expression) (candidates : List Expression) (negated : Bool)
  /-- Whether a value lies between two bounds, both included. -/
  | range (subject lower upper : Expression) (negated : Bool)
  | matching (op : MatchOperator) (subject argument : Expression)
  | concatenation (arguments : List Expression)
  /-- Whether a value carries an annotation. -/
  | annotationTest (subject name : Expression)

namespace Expression

instance : Inhabited Expression := ⟨key⟩

/-- The static kind of an expression. -/
def kind : Expression → StaticKind
  | constant v => .ofKind v.kind
  | now => .timestamp
  | reference r => r.expected
  | key => .any
  | arithmetic _ left right => (left.kind.arithmetic right.kind).getD .number
  | temporal op left right => (StaticKind.temporal op left.kind right.kind).getD .any
  | concatenation _ => .string
  | negation _ | existence _ | kindTest _ _ _ | relational _ _ _ | logical _ _ _
  | membership _ _ _ | range _ _ _ _ | matching _ _ _ | annotationTest _ _ => .bool

end Expression

end DocQuery
