import DocQuery.Text.Utf8
import DocQuery.Value.Literal

/-!
# Reading values

`Value.read` reads the text of a value: annotations, then a scalar, bytes, or a container of
further values.
-/

namespace DocQuery

open Grammar DocQuery.Language

namespace Value

/-- The name that an annotation or a field has. -/
def readName (tree : Tree) : Except ParseError String :=
  match tree.rule with
  | .identifier => .ok (String.ofList tree.text)
  | .quotedSymbol => Scalar.readQuoted .symbol tree
  | .stringLiteral => Scalar.readQuoted .string tree
  | _ => ParseError.unshaped tree "name"

/-- The name that an annotation carries. -/
def readLabel (tree : Tree) : Except ParseError String :=
  match tree.children with
  | name :: _ => readName name
  | [] => ParseError.unshaped tree "name"

/-- The bytes of a blob. -/
def readBlob (tree : Tree) : Except ParseError Scalar :=
  match Text.Base64.decode ((tree.partText? .blobContent).getD []) with
  | .ok bytes => .ok (.blob bytes)
  | .error fault => .error (.literal .blob tree.text (.base64 fault))

/-- The bytes of a clob: those of the text in it. -/
def readClob (tree : Tree) : Except ParseError Scalar :=
  match tree.children.find? (·.rule == .stringLiteral) with
  | some content => do
    return .clob (Text.Utf8.encode (← Scalar.readQuoted .clob content).toList)
  | none => .ok (.clob [])

mutual

/-- The value of a tree: annotations before a body. -/
def ofTree : Tree → Except ParseError Value
  | tree@(.mk _ _ _ parts) => ofParts tree [] parts

/-- The value of the parts that remain of a tree, after the annotations read so far. -/
def ofParts (whole : Tree) (names : List String) : List Tree → Except ParseError Value
  | [] => ParseError.unshaped whole "body"
  | part :: parts =>
    if part.rule = .label then do
      let name ← readLabel part
      ofParts whole (names ++ [name]) parts
    else return (← ofBody part).withAnnotations names

/-- The value of a body. -/
def ofBody : Tree → Except ParseError Value
  | .mk .listValue _ _ items => return list (← ofItems items)
  | .mk .sexpValue _ _ items => return sexp (← ofItems items)
  | .mk .structValue _ _ fields => return ofFields (← ofFieldTrees fields)
  | tree@(.mk .blobLiteral _ _ _) => return scalar [] (← readBlob tree)
  | tree@(.mk .clobLiteral _ _ _) => return scalar [] (← readClob tree)
  | tree => return scalar [] (← Scalar.ofTree tree)

/-- The values of items. -/
def ofItems : List Tree → Except ParseError (List Value)
  | [] => return []
  | item :: items => do
    let v ← ofTree item
    return v :: (← ofItems items)

/-- The fields of a struct. -/
def ofFieldTrees : List Tree → Except ParseError (List (String × Value))
  | [] => return []
  | .mk _ _ _ (name :: field :: _) :: fields => do
    let name ← readName name
    let v ← ofTree field
    return (name, v) :: (← ofFieldTrees fields)
  | field :: _ => ParseError.unshaped field "field"

end

/-- Reads a value. -/
def read (text : String) : Except ParseError Value := do
  let root ← ParseError.parseTree .document text.toList
  match root.children with
  | tree :: _ => ofTree tree
  | [] => ParseError.unshaped root "value"

end Value

end DocQuery
