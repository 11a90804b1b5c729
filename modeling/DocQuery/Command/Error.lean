import DocQuery.EvalError
import DocQuery.Language.ParseError
import DocQuery.PathTree.Prune

/-!
# Why a command fails
-/

namespace DocQuery

/-- Why a command fails. -/
inductive CommandError
  | parse (cause : ParseError)
  | eval (cause : EvalError)
  | prune (cause : PruneError)
  /-- The document is no JSON text. -/
  | json
  /-- There is no document. -/
  | noInput
  /-- The manual has no such topic. -/
  | unknownTopic (name : String)

/-- What is wrong, in words. -/
def CommandError.message : CommandError → String
  | parse cause => "parse error: " ++ cause.message
  | eval cause => "evaluation error: " ++ cause.message
  | prune cause => "prune error: " ++ cause.message
  | json => "invalid JSON"
  | noInput => "no input provided, use --input or pipe a document to stdin"
  | unknownTopic name =>
    "unknown documentation topic '" ++ name ++ "', run 'trellis docs' to list topics"

end DocQuery
