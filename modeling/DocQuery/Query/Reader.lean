import DocQuery.Expression.Reader
import DocQuery.Query.Basic

/-!
# Reading queries

A query is read as a path with predicates. Marks of optional steps are allowed and mean
nothing.
-/

namespace DocQuery

open Grammar DocQuery.Language

namespace QueryStep

/-- A predicate, which may be a truth value. -/
def readPredicate (tree : Tree) : Parse Expression := do
  let e ← Expression.ofTree tree
  if e.kind.accepts .bool then return e
  else Parse.checked (.error (.predicate e.kind e.toText))

/-- The step that is written. -/
def ofWritten : WrittenStep → Parse QueryStep
  | .plain selector => return plain selector
  | .fieldsWhere predicate => return fieldsWhere (← readPredicate predicate)
  | .itemsWhere predicate => return itemsWhere (← readPredicate predicate)

end QueryStep

/-- Reads a query. -/
def Query.read (text : String) : Parse Query := do
  let root ← Parse.lift (ParseError.parseTree .pathRoot text.toList)
  match root.childrenOf .path with
  | [] => Parse.lift (ParseError.unshaped root "path")
  | tree :: _ =>
    let written ← Parse.lift (WrittenStep.ofPath tree)
    return ⟨← written.mapM fun step => QueryStep.ofWritten step.1⟩

end DocQuery
