import DocQuery.Number.Binary64
import DocQuery.Number.Decimal
import DocQuery.Time.Timestamp
import DocQuery.Value.Kind

/-!
# Values

A value is a scalar, a sequence of items or a struct of named fields, each with a list of
annotations. A null has the kind of what is missing. Fields keep their order and may repeat a
name; looking a name up finds its first field.
-/

namespace DocQuery

open Number Time

/-- The three ways of writing text. -/
inductive TextForm
  | string
  | identifier
  | quotedSymbol
  deriving DecidableEq, Repr

/-- The two kinds of sequences. -/
inductive SequenceForm
  | list
  | sexp
  deriving DecidableEq, Repr

/-- What a scalar value holds. -/
inductive Scalar
  /-- A missing value of some kind. -/
  | null (kind : Kind)
  | bool (b : Bool)
  | int (n : Int)
  | float (x : Binary64)
  | decimal (d : Decimal)
  | timestamp (t : Timestamp)
  | duration (d : Duration)
  | text (form : TextForm) (content : String)
  | blob (bytes : List UInt8)
  | clob (bytes : List UInt8)
  deriving DecidableEq, Repr

/-- A document, or a part of one. -/
inductive Value
  | scalar (annotations : List String) (content : Scalar)
  | sequence (annotations : List String) (form : SequenceForm) (items : List Value)
  | struct (annotations : List String) (fields : List (String × Value))
  deriving Repr

/-- The kind of a text. -/
def TextForm.kind : TextForm → Kind
  | string => .string
  | identifier => .identifier
  | quotedSymbol => .quotedSymbol

/-- The kind of a sequence. -/
def SequenceForm.kind : SequenceForm → Kind
  | list => .list
  | sexp => .sexp

/-- The kind of a scalar. -/
def Scalar.kind : Scalar → Kind
  | null kind => kind
  | bool _ => .bool
  | int _ => .int
  | float _ => .float
  | decimal _ => .decimal
  | timestamp _ => .timestamp
  | duration _ => .duration
  | text form _ => form.kind
  | blob _ => .blob
  | clob _ => .clob

/-- Whether a scalar is missing. -/
def Scalar.isNull : Scalar → Bool
  | null _ => true
  | _ => false

namespace Value

/-- A null of a kind. -/
def null (kind : Kind) : Value := .scalar [] (.null kind)

def bool (b : Bool) : Value := .scalar [] (.bool b)

def int (n : Int) : Value := .scalar [] (.int n)

def float (x : Binary64) : Value := .scalar [] (.float x)

def decimal (d : Decimal) : Value := .scalar [] (.decimal d)

def timestamp (t : Timestamp) : Value := .scalar [] (.timestamp t)

def duration (d : Duration) : Value := .scalar [] (.duration d)

def text (form : TextForm) (content : String) : Value := .scalar [] (.text form content)

def string (content : String) : Value := text .string content

def list (items : List Value) : Value := .sequence [] .list items

def sexp (items : List Value) : Value := .sequence [] .sexp items

def ofFields (fields : List (String × Value)) : Value := .struct [] fields

/-- A struct without fields. -/
def empty : Value := ofFields []

instance : Inhabited Value := ⟨null .null⟩

/-- The annotations of a value, in order. -/
def annotations : Value → List String
  | scalar names _ => names
  | sequence names _ _ => names
  | struct names _ => names

/-- The same value with other annotations. -/
def withAnnotations (names : List String) : Value → Value
  | scalar _ content => scalar names content
  | sequence _ form items => sequence names form items
  | struct _ fields => struct names fields

/-- Adds an annotation after those there are. -/
def annotate (name : String) (v : Value) : Value :=
  v.withAnnotations (v.annotations ++ [name])

/-- Whether a value carries an annotation. -/
def isAnnotated (name : String) (v : Value) : Bool :=
  v.annotations.contains name

/-- The kind of a value. -/
def kind : Value → Kind
  | scalar _ content => content.kind
  | sequence _ form _ => form.kind
  | struct _ _ => .struct

/-- Whether a value is missing. -/
def isNull : Value → Bool
  | scalar _ content => content.isNull
  | _ => false

/-- The items of a sequence. -/
def items? : Value → Option (List Value)
  | sequence _ _ items => some items
  | _ => none

/-- The fields of a struct. -/
def fields? : Value → Option (List (String × Value))
  | struct _ fields => some fields
  | _ => none

/-- The values directly inside a container, in order. -/
def children : Value → List Value
  | scalar _ _ => []
  | sequence _ _ items => items
  | struct _ fields => fields.map Prod.snd

/-- The number of values directly inside. -/
def size (v : Value) : Nat :=
  v.children.length

/-- The first field of a name. -/
def fieldOf (name : String) (fields : List (String × Value)) : Option Value :=
  (fields.find? (·.1 == name)).map Prod.snd

/-- The first field of a name, where the value is a struct. -/
def get? (name : String) (v : Value) : Option Value :=
  v.fields?.bind (fieldOf name)

/-- The item at an index, where the value is a sequence. -/
def item? (index : Nat) (v : Value) : Option Value :=
  v.items?.bind (·[index]?)

def bool? : Value → Option Bool
  | scalar _ (.bool b) => some b
  | _ => none

def int? : Value → Option Int
  | scalar _ (.int n) => some n
  | _ => none

/-- The content of a text that is not missing. -/
def text? : Value → Option String
  | scalar _ (.text _ content) => some content
  | _ => none

def timestamp? : Value → Option Timestamp
  | scalar _ (.timestamp t) => some t
  | _ => none

def duration? : Value → Option Duration
  | scalar _ (.duration d) => some d
  | _ => none

/-- What messages say of a value: its kind, and whether it is missing. -/
def describe (v : Value) : String :=
  if v.isNull then "null " ++ v.kind.name else v.kind.name

@[simp] theorem annotations_withAnnotations (names : List String) (v : Value) :
    (v.withAnnotations names).annotations = names := by
  cases v <;> rfl

@[simp] theorem kind_withAnnotations (names : List String) (v : Value) :
    (v.withAnnotations names).kind = v.kind := by
  cases v <;> rfl

@[simp] theorem isNull_withAnnotations (names : List String) (v : Value) :
    (v.withAnnotations names).isNull = v.isNull := by
  cases v <;> rfl

end Value

end DocQuery
