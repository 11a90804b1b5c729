/-!
# Paths

A path is a chain of steps into a document. A step selects the field of a name or the item at
an index, or with a wildcard all of them, and may be marked optional.
-/

namespace DocQuery

/-- What a step selects from a container. -/
inductive Selector
  /-- The field of a name; every field without a name. -/
  | property (name : Option String)
  /-- The item at an index; every item without an index. -/
  | item (index : Option Nat)
  deriving DecidableEq, Repr

namespace Selector

/-- Whether a selector selects everything of its family. -/
def isWildcard : Selector → Bool
  | property none | item none => true
  | _ => false

/-- Whether a selector selects fields. -/
def isProperty : Selector → Bool
  | property _ => true
  | item _ => false

end Selector

/-- One step of a path. -/
structure Step where
  selector : Selector
  /-- The step has to find something. -/
  required : Bool
  deriving DecidableEq, Repr

/-- A chain of at least one step. -/
structure Path where
  first : Step
  rest : List Step
  deriving DecidableEq, Repr

namespace Path

/-- The steps of a path. -/
def steps (p : Path) : List Step :=
  p.first :: p.rest

/-- The path with these steps; there is none without steps. -/
def ofSteps? : List Step → Option Path
  | [] => none
  | first :: rest => some ⟨first, rest⟩

theorem ofSteps?_steps (p : Path) : ofSteps? p.steps = some p := rfl

end Path

/-- How a value is addressed in its container. -/
inductive Key
  | property (name : String)
  | item (index : Nat)
  deriving DecidableEq, Repr

end DocQuery
