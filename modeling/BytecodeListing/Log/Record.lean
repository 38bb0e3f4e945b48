import BytecodeListing.Log.Level
import BytecodeListing.Text.Json

/-!
# Log records

A record is a message at a level with named values, in the order in which they were
given. It carries no time and no place, so what is logged depends on the input
alone. A record is one line in either format.
-/

namespace BytecodeListing

/-- A value in a record. -/
inductive Value where
  | number (n : Nat)
  | string (s : String)
  deriving DecidableEq, Repr

/-- A message at a level with named values. -/
structure Record where
  level : Level
  message : String
  fields : List (String × Value) := []
  deriving DecidableEq, Repr

namespace Value

/-- The value in a text record: strings are quoted. -/
def text : Value → List Char
  | number n => (toString n).toList
  | string s => Text.quoted s.toList

/-- The value in JSON. -/
def json : Value → List Char
  | number n => (toString n).toList
  | string s => Text.jsonString s.toList

end Value

namespace Record

/-- The message and its values. -/
def text (r : Record) : List Char :=
  r.message.toList ++
    r.fields.flatMap fun (key, value) => [' '] ++ key.toList ++ ['='] ++ value.text

/-- One member of a JSON object. -/
def member (key : String) (value : List Char) : List Char :=
  Text.jsonString key.toList ++ [':'] ++ value

/-- A JSON object. -/
def object (members : List (List Char)) : List Char :=
  ['\x7b'] ++ [','].intercalate members ++ ['\x7d']

/-- The record as one JSON object; the message is the first of its fields. -/
def json (r : Record) : List Char :=
  object [
    member "level" (Text.jsonString r.level.label.toList),
    member "fields" (object
      (member "message" (Text.jsonString r.message.toList) ::
        r.fields.map fun (key, value) => member key value.json))]

/-- The line of a record. -/
def line (format : Format) (r : Record) : List Char :=
  match format with
  | .text => r.level.label.toList ++ [' '] ++ r.text
  | .json => r.json

/-- The lines of some records, as they are added to a file. -/
def lines (format : Format) (records : List Record) : List Char :=
  records.flatMap fun r => r.line format ++ ['\n']

end Record

end BytecodeListing
