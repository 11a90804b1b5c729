import DocQuery.Command.Format
import DocQuery.Command.Manual
import DocQuery.Path.Select
import DocQuery.PathTree.Build
import DocQuery.Query.Reader
import DocQuery.Query.Select

/-!
# Commands

What the command line can do: evaluate an expression, select by a path or a query, prune to
a set of paths, check a text without a document, and show the manual.
-/

namespace DocQuery

open Time

/-- What a command is given besides its arguments. -/
structure Settings where
  /-- The text of the document. -/
  input : Option String
  format : DocumentFormat
  /-- How many patterns are kept. -/
  cacheCapacity : Nat
  now : Timestamp

/-- A command with its arguments. -/
inductive Command
  | eval (expression : String)
  | select (path : String) (all : Bool)
  | prune (paths : String) (validate : Bool)
  | check (text : String) (query : Bool)
  | docs (topic : Option String)

namespace Settings

/-- The surroundings of an evaluation against a document. -/
def context (settings : Settings) (document : Value) : Context :=
  ⟨document, none, settings.now⟩

/-- No patterns yet. -/
def patterns (settings : Settings) : Regex.Cache :=
  .new settings.cacheCapacity

/-- Reads with no patterns yet. -/
def parse {α : Type} (settings : Settings) (reading : Parse α) :
    Except CommandError (α × Regex.Cache) :=
  match reading.run settings.patterns with
  | (.ok a, cache) => .ok (a, cache)
  | (.error e, _) => .error (.parse e)

/-- The result of an evaluation. -/
def finish {α : Type} (cache : Regex.Cache) (evaluation : Evaluation α) :
    Except CommandError α :=
  (evaluation.run cache).1.mapError .eval

end Settings

namespace Command

/-- Evaluates an expression; without a document, against a struct without fields. -/
def evaluate (settings : Settings) (text : String) : Except CommandError Value := do
  let (e, cache) ← settings.parse (Expression.read text)
  let document ← match settings.input with
    | some input => settings.format.read input
    | none => pure Value.empty
  Settings.finish cache (e.evaluate (settings.context document))

/-- Selects the values that a query reaches. -/
def selectAll (settings : Settings) (text : String) : Except CommandError Value := do
  let document ← settings.format.require settings.input
  let (q, cache) ← settings.parse (Query.read text)
  let reached ← Settings.finish cache (q.select (settings.context document))
  return .list (reached.map Prod.snd)

/-- Selects the value that a path leads to; it is missing where an optional step finds
nothing. -/
def selectOne (settings : Settings) (text : String) : Except CommandError Value := do
  let document ← settings.format.require settings.input
  let path ← (Path.read text).mapError .parse
  match ← (path.select document).mapError .eval with
  | .hit _ v => return v
  | .fallback _ => return .null .null
  | .miss _ => .error (.eval (.selectionMiss path.toText))

/-- Prunes a document; with `validate` the result only says that it could be pruned. -/
def pruned (settings : Settings) (text : String) (validate : Bool) :
    Except CommandError Value := do
  let tree ← (PathTree.read text).mapError .parse
  let document ← settings.format.require settings.input
  let result ← (tree.prune Provenance.defaultMark document).mapError .prune
  return if validate then .bool true else result

/-- Says of an expression which kind it has, and of a query how many steps. -/
def checked (settings : Settings) (text : String) (query : Bool) :
    Except CommandError String := do
  if query then
    let (q, _) ← settings.parse (Query.read text)
    return s!"Valid query with {q.steps.length} steps"
  else
    let (e, _) ← settings.parse (Expression.read text)
    return "Valid " ++ e.kind.name ++ " expression"

/-- A page of the manual, or its overview. -/
def documented : Option String → Except CommandError String
  | none => .ok (Manual.text Manual.overview)
  | some name =>
    match Topic.ofName? name with
    | some topic => .ok (Manual.text (Manual.page topic))
    | none => .error (.unknownTopic name)

/-- The output of a command. -/
def run (settings : Settings) : Command → Except CommandError String
  | eval expression => settings.format.write <$> evaluate settings expression
  | select path true => settings.format.write <$> selectAll settings path
  | select path false => settings.format.write <$> selectOne settings path
  | prune paths validate => settings.format.write <$> pruned settings paths validate
  | check text query => checked settings text query
  | docs topic => documented topic

end Command

end DocQuery
