import DocQuery.Expression.Evaluate
import DocQuery.Query.Basic

/-!
# Answering queries

A query is answered step by step, from all values that the steps so far have reached, in the
order of the document. A step reaches nothing in a container of another shape.
-/

namespace DocQuery

/-- A value that a query has reached, with its key. -/
abbrev Match := Key × Value

namespace QueryStep

/-- The fields of a struct with their keys. -/
def fieldMatches (fields : List (String × Value)) : List Match :=
  fields.map fun (name, v) => (.property name, v)

/-- The items of a sequence with their keys, counted from `index`. -/
def itemMatches (index : Nat) : List Value → List Match
  | [] => []
  | v :: rest => (.item index, v) :: itemMatches (index + 1) rest

/-- What a selector selects from a container. -/
def selected : Selector → Value → List Match
  | .property (some name), .struct _ fields =>
    ((fieldMatches fields).find? (·.1 = .property name)).toList
  | .property none, .struct _ fields => fieldMatches fields
  | .item (some index), .sequence _ _ items =>
    (items[index]?.map fun v => (.item index, v)).toList
  | .item none, .sequence _ _ items => itemMatches 0 items
  | _, _ => []

/-- Whether a predicate holds for a candidate; a missing answer is a no. -/
def holds (context : Context) (predicate : Expression) (candidate : Match) : Evaluation Bool := do
  match ← predicate.evaluate { context with candidate := some candidate } with
  | .scalar _ (.bool b) => return b
  | .scalar _ (.null _) => return false
  | v => throw (.mismatch (.predicate predicate.toText v.kind))

/-- The candidates for which a predicate holds, in order. -/
def admitted (context : Context) (predicate : Expression) : List Match → Evaluation (List Match)
  | [] => return []
  | candidate :: rest => do
    let found ← holds context predicate candidate
    let others ← admitted context predicate rest
    return if found then candidate :: others else others

/-- What a step reaches from a container. -/
def expand (context : Context) (step : QueryStep) (container : Value) :
    Evaluation (List Match) :=
  match step with
  | plain selector => return selected selector container
  | fieldsWhere predicate => admitted context predicate (selected (.property none) container)
  | itemsWhere predicate => admitted context predicate (selected (.item none) container)

/-- What a step reaches from several containers. -/
def expandAll (context : Context) (step : QueryStep) : List Value → Evaluation (List Match)
  | [] => return []
  | container :: rest => do
    let found ← step.expand context container
    return found ++ (← step.expandAll context rest)

end QueryStep

namespace Query

/-- What the steps reach from several matches. -/
def selectFrom (context : Context) : List QueryStep → List Match → Evaluation (List Match)
  | [], reached => return reached
  | step :: rest, reached => do
    selectFrom context rest (← step.expandAll context (reached.map Prod.snd))

/-- All that a query reaches in a document, in order. -/
def select (context : Context) (q : Query) : Evaluation (List Match) :=
  match q.steps with
  | [] => return []
  | step :: rest => do selectFrom context rest (← step.expand context context.document)

end Query

end DocQuery
