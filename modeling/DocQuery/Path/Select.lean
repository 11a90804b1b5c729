import DocQuery.EvalError

/-!
# Following a path

A path leads from a document to one value. It ends early at the first step that finds
nothing; whether that is a miss depends on the step.
-/

namespace DocQuery

/-- What a path leads to: the last container, and what it yields. -/
inductive Selection
  /-- Every step finds a value. -/
  | hit (container value : Value)
  /-- A required step finds nothing. -/
  | miss (container : Value)
  /-- An optional step finds nothing. -/
  | fallback (container : Value)

/-- The last container that was reached. -/
def Selection.container : Selection → Value
  | hit container _ => container
  | miss container => container
  | fallback container => container

/-- The value that was reached. -/
def Selection.value? : Selection → Option Value
  | hit _ v => some v
  | _ => none

/-- Whether a missing container of a kind selects nothing; others cannot be selected from. -/
def Selector.toleratesNull : Selector → Kind → Bool
  | property _, kind => kind == .null || kind == .struct
  | item _, kind => kind == .null || kind.isSequence

/-- What a selector finds in a container. A wildcard finds the first child. -/
def Selector.apply (s : Selector) (container : Value) : Except EvalError (Option Value) :=
  match s, container with
  | property (some name), .struct _ fields => .ok (Value.fieldOf name fields)
  | property none, .struct _ fields => .ok (fields.head?.map Prod.snd)
  | item index, .sequence _ _ items => .ok items[index.getD 0]?
  | s, container =>
    if container.isNull && s.toleratesNull container.kind then .ok none
    else .error (.mismatch (.cannotSelect s container.kind))

/-- Follows a step and the steps after it. -/
def Step.follow (step : Step) : List Step → Value → Except EvalError Selection
  | rest, container => do
    match ← step.selector.apply container with
    | none => return if step.required then .miss container else .fallback container
    | some found =>
      match rest with
      | [] => return .hit container found
      | next :: rest => next.follow rest found

/-- Follows a path into a value. -/
def Path.select (p : Path) (v : Value) : Except EvalError Selection :=
  p.first.follow p.rest v

end DocQuery
