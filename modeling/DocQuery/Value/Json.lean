import DocQuery.Json.Printer
import DocQuery.Json.Reader
import DocQuery.Value.Numeric
import DocQuery.Value.Printer

/-!
# Values and JSON

Every JSON value is a value. The other way, annotations are dropped; what JSON has no number
for is written as a string, as are times and bytes, and the last field of a name counts.
-/

namespace DocQuery

open Number

namespace Value

mutual

/-- The value of a JSON value. -/
def ofJson : Json → Value
  | .null => null .null
  | .bool b => bool b
  | .int n => int n
  | .float x => float x
  | .string content => string content
  | .array items => list (ofJsonItems items)
  | .object members => ofFields (ofJsonMembers members)

/-- The values of items. -/
def ofJsonItems : List Json → List Value
  | [] => []
  | item :: items => ofJson item :: ofJsonItems items

/-- The fields of members. -/
def ofJsonMembers : List (String × Json) → List (String × Value)
  | [] => []
  | (name, member) :: members => (name, ofJson member) :: ofJsonMembers members

end

/-- An int as a number where 64 bits hold it. -/
def intJson (n : Int) : Json :=
  if -(2 ^ 63) ≤ n ∧ n < 2 ^ 64 then .int n else .string (String.ofList (Text.Digits.ofInt n))

/-- A decimal as an int where it is one of 64 bits, as a float where that is exact, and as its
digits elsewhere. -/
def decimalJson (d : Decimal) : Json :=
  let digits := Json.string (String.ofList d.write)
  match d.isIntegral, d.toInt64? with
  | true, some n => .int n
  | _, _ =>
    match Decimal.ofBinary64? d.toBinary64 with
    | some e => if e.equal d then .ofFloat d.toBinary64 else digits
    | none => digits

/-- A scalar in JSON. -/
def scalarJson : Scalar → Json
  | .null _ => .null
  | .bool b => .bool b
  | .int n => intJson n
  | .float x => .ofFloat x
  | .decimal d => decimalJson d
  | .timestamp t => .string (String.ofList t.write)
  | .duration d => .string (String.ofList d.write)
  | .text _ content => .string content
  | .blob bytes => .string (String.ofList (Text.Base64.encode bytes))
  | .clob bytes => .string (String.ofList (Text.Utf8.decode bytes))

mutual

/-- A value in JSON. -/
def toJson : Value → Json
  | scalar _ content => scalarJson content
  | sequence _ _ items => .array (itemsJson items)
  | struct _ fields => .object (Json.sortMembers (fieldsJson fields))

/-- Items in JSON. -/
def itemsJson : List Value → List Json
  | [] => []
  | item :: items => item.toJson :: itemsJson items

/-- Fields in JSON, in their order. -/
def fieldsJson : List (String × Value) → List (String × Json)
  | [] => []
  | (name, field) :: fields => (name, field.toJson) :: fieldsJson fields

end

end Value

end DocQuery
