import DocQuery.Expression.Printer

/-!
# Queries

A query is a path whose steps may select many values: wildcards select all children of their
family, and a predicate those for which it holds.
-/

namespace DocQuery

/-- One step of a query. -/
inductive QueryStep
  | plain (selector : Selector)
  /-- The fields for which a predicate holds. -/
  | fieldsWhere (predicate : Expression)
  /-- The items for which a predicate holds. -/
  | itemsWhere (predicate : Expression)

/-- A chain of steps. -/
structure Query where
  steps : List QueryStep

/-- The text of a step, with the slash before it. -/
def QueryStep.write : QueryStep → List Char
  | plain selector => '/' :: selector.write
  | fieldsWhere predicate => ['/', '.', '\x7b'] ++ predicate.write ++ ['\x7d']
  | itemsWhere predicate => ['/', '[', '\x7b'] ++ predicate.write ++ ['\x7d', ']']

/-- The text of a query. -/
def Query.toText (q : Query) : String :=
  String.ofList (q.steps.flatMap QueryStep.write)

end DocQuery
