import DocQuery.Language.ParseError
import DocQuery.Path.Printer

/-!
# Path trees

A set of paths as a tree in which paths with common first steps share branches. The root
stands for the document.
-/

namespace DocQuery

/-- A step of one or more paths, with the steps that follow it. -/
inductive Branch
  | mk (selector : Selector) (required : Bool) (children : List Branch)
  deriving Repr

namespace Branch

/-- The selector of a branch. -/
def selector : Branch → Selector
  | mk selector _ _ => selector

/-- Whether some path requires the step. -/
def required : Branch → Bool
  | mk _ required _ => required

/-- The branches below. -/
def children : Branch → List Branch
  | mk _ _ children => children

end Branch

/-- The branches below the root. -/
structure PathTree where
  branches : List Branch
  deriving Repr

/-- The branch of a wildcard, if it is the only one. -/
def onlyWildcard? : List Branch → Option Branch
  | [b] => if b.selector.isWildcard then some b else none
  | _ => none

/-- A line for a node at a depth. -/
def nodeLine (depth : Nat) (node : Option Selector) (required : Bool) : List Char :=
  List.replicate (2 * depth) ' ' ++ (nodeName node).toList ++
    (if required then ['\n'] else ['?', '\n'])

mutual

/-- A branch at a depth, a line for every node. -/
def Branch.write (depth : Nat) : Branch → List Char
  | .mk selector required children =>
    nodeLine depth (some selector) required ++ writeBranches (depth + 1) children

/-- Branches at a depth. -/
def writeBranches (depth : Nat) : List Branch → List Char
  | [] => []
  | b :: rest => b.write depth ++ writeBranches depth rest

end

/-- The tree, a line for every node. -/
def PathTree.toText (t : PathTree) : String :=
  String.ofList (nodeLine 0 none true ++ writeBranches 1 t.branches)

end DocQuery
