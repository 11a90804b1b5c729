import DocQuery.Language.Grammar
import DocQuery.Unicode.Class

/-!
# Syntax trees of the language

`Tree.parse` matches a text with a rule and returns its tree, or says what was expected at
the farthest place that was reached. `Tree.find` looks nodes up by a path of rule names.
-/

namespace DocQuery.Language

open Grammar

/-- Why a text has no syntax tree. -/
inductive SyntaxError
  /-- None of the expected rules matches at a place. -/
  | unexpected (rule : Rule) (place : Place) (expected : List Rule)
  /-- The grammar itself falls short. -/
  | internal (rule : Rule) (reason : String)
  deriving DecidableEq, Repr

namespace SyntaxError

/-- The rules that were expected, in words. -/
def expectedText : List Rule → String
  | [] => "end of input"
  | rules => ", ".intercalate (rules.map Rule.name)

/-- What is wrong, in words. -/
def message : SyntaxError → String
  | .unexpected rule place expected =>
    s!"syntax error in {rule.name} at line {place.line}, column {place.column}: expected " ++
      expectedText expected
  | .internal rule reason =>
    s!"grammar error in {rule.name} at line 1, column 1: " ++ reason

end SyntaxError

/-- A syntax tree of the language. -/
abbrev Tree := Node Rule

namespace Tree

/-- The tree of a text that begins with a rule. What follows the rule is not looked at. -/
def parse (rule : Rule) (text : List Char) : Except SyntaxError Tree :=
  match grammar.parse rule text with
  | (.matched _ (tree :: _), _) => .ok tree
  | (.matched _ [], _) => .error (.internal rule "grammar produced no tree")
  | (.failed, attempts) =>
    .error (.unexpected rule attempts.place (Rule.all.filter attempts.rules.contains))
  | (.exhausted, _) => .error (.internal rule "rules nested too deeply")

/-- A text without the white space around it. -/
def trim (text : List Char) : List Char :=
  ((text.dropWhile Unicode.isSpace).reverse.dropWhile Unicode.isSpace).reverse

/-- The test of one step of a look-up: rule names divided by bars. -/
def stepTest (step : String) : Tree → Bool :=
  let names := (step.splitOn "|").map fun name => String.ofList (trim name.toList)
  fun tree => names.contains tree.rule.name

/-- The nodes reached from a tree by a look-up: steps divided by points. -/
def find (tree : Tree) (query : String) : List Tree :=
  Node.descend ((query.splitOn ".").map stepTest) [tree]

end Tree

end DocQuery.Language
