import DocQuery.Expression.Basic
import DocQuery.Regex.Atom

/-!
# Patterns of match operators

Every match operator asks for a regular expression; those for parts of a text take their
argument as it stands.
-/

namespace DocQuery

/-- The pattern for an argument. -/
def MatchOperator.pattern (op : MatchOperator) (argument : String) : String :=
  let quoted := Regex.quote argument.toList
  match op with
  | search => argument
  | startsWith => String.ofList ('^' :: quoted)
  | endsWith => String.ofList (quoted ++ ['$'])
  | contains => String.ofList quoted

/-- The pattern of a match whose argument is a constant text. -/
def Expression.fixedPattern? (op : MatchOperator) : Expression → Option String
  | constant v => v.text?.map op.pattern
  | _ => none

end DocQuery
