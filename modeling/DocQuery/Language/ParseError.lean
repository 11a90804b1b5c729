import DocQuery.Expression.StaticKind
import DocQuery.Language.Tree
import DocQuery.Number.Decimal.Literal
import DocQuery.Path.Printer
import DocQuery.Text.Base64
import DocQuery.Text.Escape
import DocQuery.Time.Timestamp

/-!
# Why a text cannot be read

Texts are read in stages: the grammar yields a tree, literals are decoded, operators grouped
and kinds checked. Every stage has its causes; `ParseError.message` puts each into words.
-/

namespace DocQuery

open DocQuery.Language Operator

/-- The sorts of literals. -/
inductive LiteralKind
  | null
  | decimal
  | timestamp
  | duration
  | string
  | symbol
  | blob
  | clob
  deriving DecidableEq, Repr

/-- The name of a sort of literals. -/
def LiteralKind.name : LiteralKind → String
  | null => "null"
  | decimal => "decimal"
  | timestamp => "timestamp"
  | duration => "duration"
  | string => "string"
  | symbol => "symbol"
  | blob => "blob"
  | clob => "clob"

/-- What is wrong with a literal. -/
inductive LiteralFault
  /-- No kind has the name after `null`. -/
  | unknownKind
  | escape (fault : Text.Escape.BadEscape)
  | decimal (fault : Number.Decimal.BadDecimal)
  | timestamp (fault : Time.Timestamp.BadTimestamp)
  | duration (fault : Time.Duration.BadDuration)
  | base64 (fault : Text.Base64.BadBase64)
  deriving DecidableEq, Repr

/-- What is wrong, in words. -/
def LiteralFault.message : LiteralFault → String
  | unknownKind => "unknown kind"
  | escape fault => fault.message
  | decimal fault => fault.message
  | timestamp fault => fault.message
  | duration fault => fault.message
  | base64 fault => fault.message

/-- What is wrong with a path. -/
inductive PathFault
  /-- A predicate where only a query may have one. -/
  | predicate
  /-- An index, with its digits, beyond 64 bits. -/
  | index (digits : List Char)
  deriving DecidableEq, Repr

/-- What is wrong, in words. -/
def PathFault.message : PathFault → String
  | predicate => "predicates are only allowed in queries"
  | index digits =>
    "index " ++ String.ofList digits ++ ": number too large to fit in target type"

/-- What is wrong with the kinds in an expression. -/
inductive KindFault
  /-- An operator on numbers or times between kinds that it does not combine. -/
  | cannotApply (op : ArithmeticOperator) (left right : StaticKind)
  /-- A comparison between kinds that have no common order. -/
  | cannotRelate (op : RelationalOperator) (left right : StaticKind)
  /-- A list that cannot be compared with its subject. -/
  | cannotList (keyword : String) (subject argument : StaticKind)
  /-- A range without exactly two bounds. -/
  | bounds (keyword : String) (found : Nat)
  /-- An operand of another kind than the operation takes. -/
  | expects (operation : String) (wanted found : StaticKind) (operand : String)
  /-- A kind test on what is no selection. -/
  | testedOperand (operand : List Char)
  /-- No kind test has the name. -/
  | unknownTest (name : String)
  /-- No static kind has the name. -/
  | unknownKind (name : String)
  /-- A concatenation of nothing. -/
  | emptyConcatenation
  /-- A predicate that is never a truth value. -/
  | predicate (found : StaticKind) (operand : String)
  deriving DecidableEq, Repr

/-- What is wrong, in words. -/
def KindFault.message : KindFault → String
  | cannotApply op left right =>
    "cannot apply " ++ op.symbol ++ " to " ++ left.name ++ " and " ++ right.name
  | cannotRelate op left right =>
    "cannot compare " ++ left.name ++ " with " ++ right.name ++ " using " ++ op.symbol
  | cannotList keyword subject argument =>
    keyword ++ " cannot compare " ++ subject.name ++ " with " ++ argument.name
  | bounds keyword found => keyword ++ s!" expects exactly two arguments, found {found}"
  | expects operation wanted found operand =>
    operation ++ " expects " ++ wanted.name ++ ", found " ++ found.name ++ " in " ++ operand
  | testedOperand operand =>
    "'is' applies to selections only, found '" ++ String.ofList operand ++ "'"
  | unknownTest name => "unknown kind '" ++ name ++ "'"
  | unknownKind name => "cannot select as unknown kind '" ++ name ++ "'"
  | emptyConcatenation => "concat needs at least one argument"
  | predicate found operand =>
    "predicate must be bool, found " ++ found.name ++ " in " ++ operand

/-- Why paths cannot be merged into one tree. -/
inductive TreeError
  /-- A node has both properties and items below it; the root has no selector. -/
  | mixed (node : Option Selector)
  deriving DecidableEq, Repr

/-- The name of a node of a path tree: its selector, or `root`. -/
def nodeName (node : Option Selector) : String :=
  match node with
  | some selector => selector.toText
  | none => "root"

/-- What is wrong, in words. -/
def TreeError.message : TreeError → String
  | mixed node => "children of " ++ nodeName node ++ " mix property and item selectors"

/-- Why a text cannot be read. -/
inductive ParseError
  | syntactic (error : SyntaxError)
  | grouping (error : GroupingError BinaryOperator)
  | tree (error : TreeError)
  | kind (fault : KindFault)
  | literal (sort : LiteralKind) (text : List Char) (fault : LiteralFault)
  /-- A pattern that is no regular expression. -/
  | pattern (text : String)
  | path (text : List Char) (fault : PathFault)
  deriving DecidableEq, Repr

namespace ParseError

/-- What is wrong, in words. -/
def message : ParseError → String
  | syntactic error => error.message
  | grouping error => error.message BinaryOperator.symbol
  | tree error => error.message
  | kind fault => "type mismatch: " ++ fault.message
  | literal sort text fault =>
    "invalid " ++ sort.name ++ " literal '" ++ String.ofList text ++ "': " ++ fault.message
  | pattern text => "invalid pattern literal '" ++ text ++ "'"
  | path text fault => "invalid path '" ++ String.ofList text ++ "': " ++ fault.message

/-- A tree of the grammar has another shape than its rule gives it. -/
def unshaped {α : Type} (tree : Tree) (part : String) : Except ParseError α :=
  .error (.syntactic (.internal tree.rule ("missing " ++ part)))

/-- The tree of a whole text. -/
def parseTree (rule : Rule) (text : List Char) : Except ParseError Tree :=
  (Tree.parse rule text).mapError .syntactic

end ParseError

end DocQuery
