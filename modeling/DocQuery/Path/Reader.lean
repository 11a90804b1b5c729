import DocQuery.Path.Basic
import DocQuery.Value.Literal

/-!
# Reading paths

A step of a path names a field or an index, or is a wildcard. The steps of a query may also
have predicates, which stay trees here.
-/

namespace DocQuery

open DocQuery.Language

/-- A step as it is written. -/
inductive WrittenStep
  | plain (selector : Selector)
  /-- The fields for which a predicate holds. -/
  | fieldsWhere (predicate : Tree)
  /-- The items for which a predicate holds. -/
  | itemsWhere (predicate : Tree)

namespace WrittenStep

/-- The body of a predicate. -/
def readPredicate (tree : Tree) : Except ParseError Tree :=
  match tree.childrenOf .expression with
  | body :: _ => .ok body
  | [] => ParseError.unshaped tree "predicate"

/-- The step of a selector in a path with this text. -/
def ofSelector (path : List Char) (tree : Tree) : Except ParseError WrittenStep :=
  match tree.rule with
  | .propertyWildcard => .ok (.plain (.property none))
  | .identifier | .dollarIdentifier => .ok (.plain (.property (some (String.ofList tree.text))))
  | .quotedSymbol => return .plain (.property (some (← Scalar.readQuoted .symbol tree)))
  | .itemWildcard => .ok (.plain (.item none))
  | .itemIndex =>
    let index := Text.Digits.value tree.text
    if index < 2 ^ 64 then .ok (.plain (.item (some index)))
    else .error (.path path (.index tree.text))
  | .propertyPredicate => return .fieldsWhere (← readPredicate tree)
  | .itemPredicate => return .itemsWhere (← readPredicate tree)
  | _ => ParseError.unshaped tree "selector"

/-- A step, and whether it is required. -/
def ofTree (path : List Char) (tree : Tree) : Except ParseError (WrittenStep × Bool) := do
  let required := (tree.childrenOf .optionalMarker).isEmpty
  match tree.children with
  | .mk _ _ _ (inner :: _) :: _ => return (← ofSelector path inner, required)
  | _ => ParseError.unshaped tree "selector"

/-- The steps of a path. -/
def ofPath (tree : Tree) : Except ParseError (List (WrittenStep × Bool)) :=
  (tree.childrenOf .pathSegment).mapM (ofTree tree.text)

end WrittenStep

namespace Path

/-- A step of a plain path, which has no predicate. -/
def readStep (path : List Char) : WrittenStep × Bool → Except ParseError Step
  | (.plain selector, required) => .ok ⟨selector, required⟩
  | _ => .error (.path path .predicate)

/-- The path of a tree. -/
def ofTree (tree : Tree) : Except ParseError Path := do
  let steps ← (← WrittenStep.ofPath tree).mapM (readStep tree.text)
  match ofSteps? steps with
  | some path => return path
  | none => ParseError.unshaped tree "segment"

/-- Reads a path. -/
def read (text : String) : Except ParseError Path := do
  let root ← ParseError.parseTree .pathRoot text.toList
  match root.childrenOf .path with
  | tree :: _ => ofTree tree
  | [] => ParseError.unshaped root "path"

/-- Reads paths divided by commas or blanks. -/
def readAll (text : String) : Except ParseError (List Path) := do
  let root ← ParseError.parseTree .pathSet text.toList
  (root.childrenOf .path).mapM ofTree

end Path

end DocQuery
