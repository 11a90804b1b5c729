import DocQuery.Number.Binary64

/-!
# JSON values

Numbers are ints of at most 64 bits or floats; the members of an object are sorted by name
and have distinct names.
-/

namespace DocQuery

open Number

/-- A JSON value. -/
inductive Json
  | null
  | bool (b : Bool)
  | int (n : Int)
  | float (x : Binary64)
  | string (content : String)
  | array (items : List Json)
  | object (members : List (String × Json))
  deriving Repr

namespace Json

/-- Puts a member into sorted members; one of the same name is replaced. -/
def insertMember {α : Type} (name : String) (a : α) : List (String × α) → List (String × α)
  | [] => [(name, a)]
  | (other, b) :: rest =>
    match compare name other with
    | .lt => (name, a) :: (other, b) :: rest
    | .eq => (name, a) :: rest
    | .gt => (other, b) :: insertMember name a rest

/-- Members in any order, sorted; of several with one name the last counts. -/
def sortMembers {α : Type} (members : List (String × α)) : List (String × α) :=
  members.foldl (fun sorted m => insertMember m.1 m.2 sorted) []

/-- A float as a number; what is not finite becomes null. -/
def ofFloat (x : Binary64) : Json :=
  if x.isFinite then .float x else .null

end Json

end DocQuery
