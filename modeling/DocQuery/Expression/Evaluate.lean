import DocQuery.Expression.Arithmetic
import DocQuery.Expression.Matching
import DocQuery.Expression.Printer
import DocQuery.Path.Select
import DocQuery.Regex.Cache
import DocQuery.Regex.Match

/-!
# Evaluating expressions

An expression is evaluated from the leaves up, the left operand first. What is missing makes
the result missing, except where a test asks for it. Patterns that are computed are looked up
among the patterns that are kept; nothing else is remembered between evaluations.
-/

namespace DocQuery

open Time

/-- What an expression is evaluated against. -/
structure Context where
  document : Value
  /-- The value that a predicate is asked about, with its key. -/
  candidate : Option (Key × Value)
  now : Timestamp

/-- Evaluation with the patterns that are kept. -/
abbrev Evaluation (α : Type) := ExceptT EvalError (StateM Regex.Cache) α

namespace Evaluation

/-- A result that needs no patterns. -/
def lift {α : Type} (result : Except EvalError α) : Evaluation α :=
  ExceptT.mk (pure result)

/-- Looks a pattern up. -/
def compile (pattern : String) : Evaluation Regex :=
  ExceptT.mk fun cache =>
    match cache.request pattern with
    | (some r, cache) => (.ok r, cache)
    | (none, cache) => (.error (.invalidPattern pattern), cache)

end Evaluation

namespace Reference

/-- The value in which a reference starts. -/
def start (context : Context) (r : Reference) : Except EvalError Value :=
  match r.origin with
  | .document => .ok context.document
  | .candidate =>
    match context.candidate with
    | some (_, v) => .ok v
    | none => .error (.noCandidate "@")

/-- Follows the path of a reference. -/
def follow (context : Context) (r : Reference) : Except EvalError Selection := do
  let v ← r.start context
  match r.path with
  | none => return .hit v v
  | some path => path.select v

/-- The value that was found, in the kind that a reference expects: a missing value without a
kind gets the kind of what is missing. -/
def conform (r : Reference) (v : Value) : Except EvalError Value :=
  if !r.expected.admits v then .error (.mismatchedSelection r.pathText r.expected v.kind)
  else if v.kind = .null && r.expected != .any then
    .ok ((Value.null r.expected.nullKind).withAnnotations v.annotations)
  else .ok v

/-- The value of a reference. Where an optional step finds nothing it is missing. -/
def value (context : Context) (r : Reference) : Except EvalError Value := do
  match ← r.follow context with
  | .hit _ v => r.conform v
  | .fallback _ => return .null r.expected.nullKind
  | .miss _ => .error (.selectionMiss r.pathText)

/-- The value of a reference together with whether its path finds one; nothing where a
required step finds none or the value has another kind. -/
def value? (context : Context) (r : Reference) : Except EvalError (Option (Value × Bool)) :=
  match r.value context with
  | .ok v => do
    match ← r.follow context with
    | .hit _ _ => return some (v, true)
    | _ => return some (v, false)
  | .error e => if e.isSelectionFailure then .ok none else .error e

/-- Whether a reference leads to a value of its kind. -/
def exists? (context : Context) (r : Reference) : Except EvalError Bool := do
  match ← r.value? context with
  | some (_, found) => return found
  | none => return false

/-- Whether a reference leads to a value that passes a test. -/
def passes (context : Context) (r : Reference) (test : KindTest) : Except EvalError Bool := do
  match ← r.value? context with
  | some (v, found) => return found && test.passes v
  | none => return false

end Reference

namespace Expression

/-- A truth value, or a missing one. -/
def truth (answer : Option Bool) : Value :=
  match answer with
  | some b => .bool b
  | none => .null .bool

/-- The truth value of an operand; `fault` says what else it would be. -/
def operandTruth (fault : Value → Mismatch) (v : Value) : Except EvalError (Option Bool) :=
  match v with
  | .scalar _ (.bool b) => .ok (some b)
  | .scalar _ (.null _) => .ok none
  | v => .error (.mismatch (fault v))

/-- A negation. -/
def negate (v : Value) : Except EvalError Value := do
  return truth ((← operandTruth .negated v).map (!·))

/-- An operation on truth values. -/
def applyLogical (op : LogicalOperator) (left right : Value) : Except EvalError Value := do
  match ← operandTruth .logical left, ← operandTruth .logical right with
  | some a, some b => return truth (some (op.apply a b))
  | _, _ => return truth none

/-- The order of two values. -/
def order (left right : Value) : Except EvalError Ordering :=
  (left.compareTo right).mapError fun cause => .mismatch (.incomparable cause)

/-- Whether a relation holds; unknown where a value is missing. -/
def relate (op : RelationalOperator) (left right : Value) : Except EvalError (Option Bool) :=
  if left.isNull || right.isNull then .ok none
  else return some (op.holds (← order left right))

/-- Whether a value that is not missing equals one of several; the candidates after an equal
one are not looked at. -/
def memberOf (subject : Value) : List Value → Except EvalError (Option Bool)
  | [] => return some false
  | v :: rest =>
    if v.isNull then do
      -- A missing candidate leaves the answer open, unless an equal one follows.
      match ← memberOf subject rest with
      | some true => return some true
      | _ => return none
    else do
      match ← order subject v with
      | .eq => return some true
      | _ => memberOf subject rest

/-- Whether a value equals one of several; unknown where it is missing, or where it equals
none and one is missing. -/
def isMember (subject : Value) (candidates : List Value) : Except EvalError (Option Bool) :=
  if subject.isNull then .ok none else memberOf subject candidates

/-- Whether a value lies between two bounds. -/
def isBetween (subject lower upper : Value) : Except EvalError (Option Bool) := do
  match ← relate .greaterOrEqual subject lower, ← relate .lessOrEqual subject upper with
  | some above, some below => return some (above && below)
  | _, _ => return none

/-- An answer, or its opposite. -/
def answer (negated : Bool) (found : Option Bool) : Value :=
  truth (found.map (· != negated))

/-- The texts of a match; nothing where one is missing. -/
def matchTexts (op : MatchOperator) (subject argument : Value) :
    Except EvalError (Option (String × String)) :=
  if subject.isNull || argument.isNull then .ok none
  else
    match subject.text?, argument.text? with
    | some text, some wanted => .ok (some (text, wanted))
    | _, _ => .error (.mismatch (.matching op subject argument))

/-- The text with which a concatenation begins; nothing where it is missing. -/
def firstText (v : Value) : Except EvalError (Option String) :=
  match v.text? with
  | some text => .ok (some text)
  | none => if v.isNull then .ok none else .error (.mismatch (.concatenation v))

/-- Whether a value carries an annotation. -/
def carries (subject name : Value) : Except EvalError Value :=
  match name.text? with
  | some text => .ok (.bool (subject.isAnnotated text))
  | none => if name.isNull then .ok (truth none) else .error (.mismatch (.annotationName name))

/-- The key of the candidate as a value. -/
def keyValue (context : Context) : Except EvalError Value :=
  match context.candidate with
  | some (.property name, _) => .ok (.string name)
  | some (.item index, _) => .ok (.int index)
  | none => .error (.noCandidate "#")

/-- The pattern of a match. That of a constant argument was looked up when the expression was
read. -/
def matchPattern (op : MatchOperator) (argument : Expression) (wanted : String) :
    Evaluation Regex :=
  match fixedPattern? op argument with
  | some pattern =>
    match Regex.read pattern with
    | some r => pure r
    | none => throw (.invalidPattern pattern)
  | none => Evaluation.compile (op.pattern wanted)

mutual

/-- The value of an expression. -/
def evaluate (context : Context) : Expression → Evaluation Value
  | constant v => return v
  | now => return .timestamp context.now
  | reference r => Evaluation.lift (r.value context)
  | key => Evaluation.lift (keyValue context)
  | negation operand => do Evaluation.lift (negate (← evaluate context operand))
  | existence r => Evaluation.lift (Value.bool <$> r.exists? context)
  | kindTest r test negated =>
    Evaluation.lift ((fun found => .bool (found != negated)) <$> r.passes context test)
  | arithmetic op left right => do
    let a ← evaluate context left
    let b ← evaluate context right
    Evaluation.lift (op.apply (arithmetic op left right).kind a b)
  | relational op left right => do
    let a ← evaluate context left
    let b ← evaluate context right
    Evaluation.lift (truth <$> relate op a b)
  | logical op left right => do
    let a ← evaluate context left
    let b ← evaluate context right
    Evaluation.lift (applyLogical op a b)
  | temporal op left right => do
    let a ← evaluate context left
    let b ← evaluate context right
    Evaluation.lift (op.apply (temporal op left right).kind a b)
  | membership subject candidates negated => do
    let v ← evaluate context subject
    let vs ← evaluateAll context candidates
    Evaluation.lift (answer negated <$> isMember v vs)
  | range subject lower upper negated => do
    let v ← evaluate context subject
    let a ← evaluate context lower
    let b ← evaluate context upper
    Evaluation.lift (answer negated <$> isBetween v a b)
  | matching op subject argument => do
    let v ← evaluate context subject
    let a ← evaluate context argument
    match ← Evaluation.lift (matchTexts op v a) with
    | none => return truth none
    | some (text, wanted) =>
      let r ← matchPattern op argument wanted
      return .bool (r.isMatch text)
  | concatenation arguments => evaluateTexts context arguments
  | annotationTest subject name => do
    let v ← evaluate context subject
    let n ← evaluate context name
    Evaluation.lift (carries v n)

/-- The values of expressions. -/
def evaluateAll (context : Context) : List Expression → Evaluation (List Value)
  | [] => return []
  | e :: rest => do
    let v ← evaluate context e
    return v :: (← evaluateAll context rest)

/-- The concatenation of the values of expressions. Where the first one is missing the others
are not evaluated. -/
def evaluateTexts (context : Context) : List Expression → Evaluation Value
  | [] => return .string ""
  | e :: rest => do
    match ← Evaluation.lift (firstText (← evaluate context e)) with
    | none => return .null .string
    | some text =>
      let vs ← evaluateAll context rest
      return .string (vs.foldl (fun joined v => joined ++ v.canonicalText) text)

end

end Expression

end DocQuery
