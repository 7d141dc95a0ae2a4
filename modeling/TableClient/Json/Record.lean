import TableClient.Json.Form

/-!
# Records

A record is written as an object of its fields, in the order in which they are declared. It is read
from an object or from an array of its fields in that order. Fields with other names are passed
over; a field that is missing has its default, if there is one for it; a field that stands twice has
no reading.
-/

namespace TableClient

/-- The fields of a record with the given names that a value has. An array has them without their
    names, and may lack the last ones. -/
def Json.recordFields? (names : List String) : Json → Option (List (String × Json))
  | .object fields =>
    if names.all fun name => fields.countP (fun field => field.1 = name) ≤ 1 then some fields
    else none
  | .array items => if items.length ≤ names.length then some (names.zip items) else none
  | _ => none

/-- How the fields of a record are written and read. -/
structure RecordForm (α : Type) where
  /-- The names of the fields, in the order in which they are declared. -/
  names : List String
  write : α → List (String × Json)
  readFields? : Source → List (String × Json) → Option α

namespace RecordForm

variable {α β : Type}

/-- A field that has to be there. -/
def required [JsonForm α] (name : String) : RecordForm α where
  names := [name]
  write value := [(name, toJson value)]
  readFields? source fields := (Dict.get? fields name).bind (readFrom? source)

/-- A field that has a default. -/
def withDefault [JsonForm α] (name : String) (default : α) : RecordForm α where
  names := [name]
  write value := [(name, toJson value)]
  readFields? source fields :=
    match Dict.get? fields name with
    | some json => readFrom? source json
    | none => some default

/-- A field that is left out when it is absent. -/
def leftOut [JsonForm α] (name : String) : RecordForm (Option α) :=
  { withDefault name none with
    write := fun
      | none => []
      | some value => [(name, toJson value)] }

/-- Fields and others behind them. -/
def and (first : RecordForm α) (second : RecordForm β) : RecordForm (α × β) where
  names := first.names ++ second.names
  write value := first.write value.1 ++ second.write value.2
  readFields? source fields := do
    return (← first.readFields? source fields, ← second.readFields? source fields)

/-- The fields of what another type is made of. -/
def madeOf (parts : β → α) (make : α → β) (form : RecordForm α) : RecordForm β where
  names := form.names
  write value := form.write (parts value)
  readFields? source fields := (form.readFields? source fields).map make

/-- The object that a record is written as. -/
def toJson (form : RecordForm α) (value : α) : Json := .object (form.write value)

/-- The reading of a record. -/
def readFrom? (form : RecordForm α) (source : Source) (json : Json) : Option α :=
  (json.recordFields? form.names).bind (form.readFields? source)

/-- The reading of the content of an alternative that is a record. From a value no array is taken
    for it. -/
def readContent? (form : RecordForm α) : Source → Json → Option α
  | .value, .array _ => none
  | source, json => form.readFrom? source json

/-- A type whose values are records. -/
@[reducible] def jsonForm (form : RecordForm α) : JsonForm α := ⟨form.toJson, form.readFrom?⟩

end RecordForm

end TableClient
