import DocQuery.Command.Error
import DocQuery.Json.Printer
import DocQuery.Json.Reader
import DocQuery.Value.Json
import DocQuery.Value.Printer
import DocQuery.Value.Reader

/-!
# Formats of documents

Documents are read and written as the text of values or as JSON.
-/

namespace DocQuery

/-- How documents are read and results written. -/
structure DocumentFormat where
  json : Bool
  pretty : Bool
  deriving DecidableEq, Repr

namespace DocumentFormat

/-- The text of values, on one line. -/
def plain : DocumentFormat := ⟨false, false⟩

/-- Reads a document. -/
def read (format : DocumentFormat) (text : String) : Except CommandError Value :=
  if format.json then
    match Json.read text with
    | some j => .ok (.ofJson j)
    | none => .error .json
  else (Value.read text).mapError .parse

/-- Reads a document that has to be there. -/
def require (format : DocumentFormat) : Option String → Except CommandError Value
  | some text => format.read text
  | none => .error .noInput

/-- Writes a result. -/
def write (format : DocumentFormat) (v : Value) : String :=
  match format.json, format.pretty with
  | true, true => v.toJson.toPrettyText
  | true, false => v.toJson.toText
  | false, true => v.toPrettyText
  | false, false => v.toText

end DocumentFormat

end DocQuery
