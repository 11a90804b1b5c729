import DocQuery.Expression.Check
import DocQuery.Expression.Matching
import DocQuery.Path.Reader
import DocQuery.Regex.Cache

/-!
# Reading expressions

The grammar leaves operations as flat sequences; they are grouped by tiers and checked from
the leaves up. The constant patterns of matches are looked up among the patterns that are
kept, and refused where they are no regular expressions.
-/

namespace DocQuery

open Grammar DocQuery.Language Operator

/-- Reading with the patterns that are kept. -/
abbrev Parse (α : Type) := ExceptT ParseError (StateM Regex.Cache) α

namespace Parse

/-- A result that needs no patterns. -/
def lift {α : Type} (result : Except ParseError α) : Parse α :=
  ExceptT.mk (pure result)

/-- A check of kinds. -/
def checked {α : Type} (result : Except KindFault α) : Parse α :=
  lift (result.mapError .kind)

/-- Looks a pattern up. -/
def compile (pattern : String) : Parse Unit :=
  ExceptT.mk fun cache =>
    match cache.request pattern with
    | (some _, cache) => (.ok (), cache)
    | (none, cache) => (.error (.pattern pattern), cache)

end Parse

namespace Reference

/-- The kind that is named after a path; any kind where there is no name. -/
def readExpected (tree : Tree) : Except ParseError StaticKind :=
  match tree.partText? .typeName with
  | none => .ok .any
  | some name =>
    match StaticKind.ofName? (String.ofList name) with
    | some kind => .ok kind
    | none => .error (.kind (.unknownKind (String.ofList name)))

/-- The reference of a tree. -/
def ofTree (tree : Tree) : Except ParseError Reference :=
  match tree.rule with
  | .relativeSelection =>
    match tree.childrenOf .relativePath with
    | [] => ParseError.unshaped tree "relative_path"
    | relative :: _ => do
      let path ← match relative.childrenOf .path with
        | [] => pure none
        | path :: _ => some <$> Path.ofTree path
      return ⟨.candidate, path, ← readExpected tree⟩
  | _ =>
    match tree.childrenOf .path with
    | [] => ParseError.unshaped tree "path"
    | path :: _ => do
      let path ← Path.ofTree path
      return ⟨.document, some path, ← readExpected tree⟩

end Reference

namespace Expression

/-- The operator that a rule matches. -/
def operatorOf? : Rule → Option BinaryOperator
  | .power => some (.arithmetic .power)
  | .multiply => some (.arithmetic .multiply)
  | .divide => some (.arithmetic .divide)
  | .modulus => some (.arithmetic .modulus)
  | .add => some (.arithmetic .add)
  | .subtract => some (.arithmetic .subtract)
  | .greaterOrEqual => some (.relational .greaterOrEqual)
  | .lessOrEqual => some (.relational .lessOrEqual)
  | .notEqual => some (.relational .notEqual)
  | .equal => some (.relational .equal)
  | .greaterThan => some (.relational .greaterThan)
  | .lessThan => some (.relational .lessThan)
  | .andOperator => some (.logical .and)
  | .xorOperator => some (.logical .xor)
  | .norOperator => some (.logical .nor)
  | .orOperator => some (.logical .or)
  | _ => none

/-- Groups operands and operators, and checks every operation. -/
def ofItems (items : List (Item Expression BinaryOperator)) : Parse Expression :=
  Parse.lift <| groupWith (fun left right op => (ofBinary left right op).mapError .kind)
    BinaryOperator.associativity (fun e => .error (.grouping e)) BinaryOperator.tiers items

/-- A test of the kind of a selection. -/
def readKindTest (subject : Tree) (name : List Char) (negated : Bool) :
    Except ParseError Expression :=
  match subject.rule with
  | .selection | .relativeSelection => do
    let r ← Reference.ofTree subject
    match KindTest.ofName? (String.ofList name) with
    | some test => return kindTest r test negated
    | none => .error (.kind (.unknownTest (String.ofList name)))
  | _ => .error (.kind (.testedOperand subject.text))

/-- A match of a text, with the pattern of a constant argument. -/
def readMatching (op : MatchOperator) (subject argument : Expression) : Parse Expression := do
  let e ← Parse.checked (ofMatching op subject argument)
  match fixedPattern? op argument with
  | some pattern => Parse.compile pattern
  | none => pure ()
  return e

mutual

/-- The expression of an operand or of a whole expression. -/
def ofTree : Tree → Parse Expression
  -- A lone operand needs no grouping.
  | .mk .expression _ _ [operand] => ofTree operand
  | .mk .expression _ _ parts => do ofItems (← readItems parts)
  | .mk .negation _ _ (_ :: operand :: _) => do
    Parse.checked (ofNegation (← ofTree operand))
  | .mk .existence _ _ (_ :: selection :: _) =>
    Parse.lift (existence <$> Reference.ofTree selection)
  | .mk .concatenation _ _ (_ :: .mk _ _ _ arguments :: _) => do
    Parse.checked (ofConcatenation (← readAll arguments))
  | .mk .postfixOperand _ _ [subject] => ofTree subject
  | .mk .postfixOperand _ _ (subject :: operation :: _) =>
    readOperation subject (ofTree subject) operation
  | tree@(.mk .selection _ _ _) => Parse.lift (reference <$> Reference.ofTree tree)
  | tree@(.mk .relativeSelection _ _ _) => Parse.lift (reference <$> Reference.ofTree tree)
  | .mk .keyReference _ _ _ => return key
  | .mk .nowLiteral _ _ _ => return now
  | tree => Parse.lift ((fun content => constant (.scalar [] content)) <$> Scalar.ofTree tree)

/-- The operands and operators of an expression. -/
def readItems : List Tree → Parse (List (Item Expression BinaryOperator))
  | [] => return []
  | part :: parts => do
    let item ← match operatorOf? part.rule with
      | some op => pure (.operator op)
      | none => Item.operand <$> ofTree part
    return item :: (← readItems parts)

/-- The arguments of a list. -/
def readAll : List Tree → Parse (List Expression)
  | [] => return []
  | argument :: arguments => do
    let e ← ofTree argument
    return e :: (← readAll arguments)

/-- An operation after its subject. The arguments are read before the subject. -/
def readOperation (written : Tree) (subject : Parse Expression) : Tree → Parse Expression
  | .mk .typeCheck _ _ [_, name] => Parse.lift (readKindTest written name.text false)
  | .mk .negatedTypeCheck _ _ [_, _, name] => Parse.lift (readKindTest written name.text true)
  | .mk .inOperation _ _ [_, .mk _ _ _ arguments] => do
    let candidates ← readAll arguments
    Parse.checked (ofMembership (← subject) candidates false)
  | .mk .notInOperation _ _ [_, _, .mk _ _ _ arguments] => do
    let candidates ← readAll arguments
    Parse.checked (ofMembership (← subject) candidates true)
  | .mk .betweenOperation _ _ [_, .mk _ _ _ arguments] => do
    let bounds ← readAll arguments
    Parse.checked (ofRange (← subject) bounds false)
  | .mk .notBetweenOperation _ _ [_, _, .mk _ _ _ arguments] => do
    let bounds ← readAll arguments
    Parse.checked (ofRange (← subject) bounds true)
  | .mk .matchesOperation _ _ [_, argument] => do
    let argument ← ofTree argument
    readMatching .search (← subject) argument
  | .mk .startsWithOperation _ _ [_, _, argument] => do
    let argument ← ofTree argument
    readMatching .startsWith (← subject) argument
  | .mk .endsWithOperation _ _ [_, _, argument] => do
    let argument ← ofTree argument
    readMatching .endsWith (← subject) argument
  | .mk .containsOperation _ _ [_, argument] => do
    let argument ← ofTree argument
    readMatching .contains (← subject) argument
  | .mk .hasAnnotationOperation _ _ [_, _, name] => do
    let name ← ofTree name
    Parse.checked (ofAnnotationTest (← subject) name)
  | tree => Parse.lift (ParseError.unshaped tree "argument")

end

/-- Reads an expression. -/
def read (text : String) : Parse Expression := do
  let root ← Parse.lift (ParseError.parseTree .expressionRoot text.toList)
  match root.childrenOf .expression with
  | tree :: _ => ofTree tree
  | [] => Parse.lift (ParseError.unshaped root "expression")

end Expression

end DocQuery
