import DocQuery.Expression.Printer
import DocQuery.Language.ParseError

/-!
# Kind-checked expressions

The functions that build an operation after its operands have been checked. What a static
kind leaves open is checked again when the operation is evaluated.
-/

namespace DocQuery.Expression

/-- Checks that the value of an operand may be of the kind that an operation takes. -/
def expect (operation : String) (wanted : StaticKind) (operand : Expression) :
    Except KindFault Unit :=
  if operand.kind.accepts wanted then .ok ()
  else .error (.expects operation wanted operand.kind operand.toText)

/-- A sum or a difference with a time. -/
def ofTemporal (op : TemporalOperator) (sign : ArithmeticOperator) (left right : Expression) :
    Except KindFault Expression :=
  match StaticKind.temporal op left.kind right.kind with
  | some _ => .ok (temporal op left right)
  | none => .error (.cannotApply sign left.kind right.kind)

/-- Arithmetic on numbers, or on times where one operand is a time. -/
def ofArithmetic (op : ArithmeticOperator) (left right : Expression) :
    Except KindFault Expression :=
  let numbers :=
    match left.kind.arithmetic right.kind with
    | some _ => .ok (arithmetic op left right)
    | none => .error (.cannotApply op left.kind right.kind)
  match op.temporal? with
  | some sum =>
    if left.kind.isTemporal || right.kind.isTemporal then ofTemporal sum op left right
    else numbers
  | none => numbers

/-- A comparison. -/
def ofRelational (op : RelationalOperator) (left right : Expression) :
    Except KindFault Expression :=
  if left.kind.comparable right.kind then .ok (relational op left right)
  else .error (.cannotRelate op left.kind right.kind)

/-- An operation on truth values. -/
def ofLogical (op : LogicalOperator) (left right : Expression) :
    Except KindFault Expression := do
  expect op.symbol .bool left
  expect op.symbol .bool right
  return logical op left right

/-- An operation between two operands. -/
def ofBinary (left right : Expression) : BinaryOperator → Except KindFault Expression
  | .arithmetic op => ofArithmetic op left right
  | .relational op => ofRelational op left right
  | .logical op => ofLogical op left right

/-- A negation. -/
def ofNegation (operand : Expression) : Except KindFault Expression := do
  expect "not" .bool operand
  return negation operand

/-- Checks that a subject may be compared with every argument of a list. -/
def comparable (keyword : String) (subject : Expression) (arguments : List Expression) :
    Except KindFault Unit :=
  match arguments.find? fun argument => !subject.kind.comparable argument.kind with
  | some odd => .error (.cannotList keyword subject.kind odd.kind)
  | none => .ok ()

/-- A test for membership. -/
def ofMembership (subject : Expression) (candidates : List Expression) (negated : Bool) :
    Except KindFault Expression := do
  comparable (membershipKeyword negated) subject candidates
  return membership subject candidates negated

/-- A test for a range, which has two bounds. -/
def ofRange (subject : Expression) (bounds : List Expression) (negated : Bool) :
    Except KindFault Expression :=
  match bounds with
  | [lower, upper] => do
    comparable (rangeKeyword negated) subject bounds
    return range subject lower upper negated
  | _ => .error (.bounds (rangeKeyword negated) bounds.length)

/-- A match of a text. -/
def ofMatching (op : MatchOperator) (subject argument : Expression) :
    Except KindFault Expression := do
  expect op.keyword .string subject
  expect op.keyword .string argument
  return matching op subject argument

/-- A concatenation, which begins with a text. -/
def ofConcatenation : List Expression → Except KindFault Expression
  | [] => .error .emptyConcatenation
  | first :: rest => do
    expect "concat" .string first
    return concatenation (first :: rest)

/-- A test for an annotation. -/
def ofAnnotationTest (subject name : Expression) : Except KindFault Expression := do
  expect "has annotation" .string name
  return annotationTest subject name

end DocQuery.Expression
