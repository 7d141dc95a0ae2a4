import TableClient.Json.Basic

/-!
# JSON forms of types

A type with a JSON form can be written as a JSON value and read from one. It is read from a text at
once, so that the fields of an object are there as they are written, or from the value that a text
was read as. Reading is strict: a value of another kind or an integer out of range has no reading.
-/

namespace TableClient

/-- What a type is read from. -/
inductive Source where
  /-- A text, at once. A reader that does not look into the fields that it passes over takes a few
      texts more, where a string, a number or the nesting in such a field is at fault. It reads from
      them what is read here with null in the place of that field. -/
  | text
  /-- The value that a text was read as. -/
  | value

/-- What there is to read of a value as it is written. -/
def Source.see : Source → Json → Json
  | .text, json => json
  | .value, json => json.settle

/-- Types that can be written as JSON values and read from them. -/
class JsonForm (α : Type) where
  toJson : α → Json
  readFrom? : Source → Json → Option α

export JsonForm (toJson readFrom?)

/-- The reading of a value. -/
def ofJson? {α : Type} [JsonForm α] (json : Json) : Option α := readFrom? .value json

namespace Json

/-- The number of the integer that a value is. -/
def asInt? : Json → Option Int
  | .number (.int n) => some n
  | _ => none

/-- The integer that a value is, if it lies between `least` and `greatest`. -/
def intWithin? (least greatest : Int) (json : Json) : Option Int :=
  json.asInt?.filter fun n => least ≤ n && n ≤ greatest

/-- The float nearest to the number that a value is. -/
def asBinary64? : Json → Option Binary64
  | .number (.int n) => Binary64.ofInt n
  | .number (.float x) => some x
  | _ => none

end Json

/-! ## Basic types -/

instance : JsonForm Json where
  toJson := id
  readFrom?
    | .text, json => some json.settle
    | .value, json => some json

instance : JsonForm Bool where
  toJson := .bool
  readFrom?
    | _, .bool value => some value
    | _, _ => none

instance : JsonForm String where
  toJson := .string
  readFrom?
    | _, .string value => some value
    | _, _ => none

instance : JsonForm UInt8 where
  toJson n := .nat n.toNat
  readFrom? _ json := (json.intWithin? 0 255).map fun n => UInt8.ofNat n.toNat

instance : JsonForm UInt64 where
  toJson n := .nat n.toNat
  readFrom? _ json := (json.intWithin? 0 0xFFFFFFFFFFFFFFFF).map fun n => UInt64.ofNat n.toNat

/-- The readings of the items of a list, if all have one. -/
def readItems? {α : Type} [JsonForm α] (source : Source) : List Json → Option (List α)
  | [] => some []
  | item :: items => do return (← readFrom? source item) :: (← readItems? source items)

instance {α : Type} [JsonForm α] : JsonForm (List α) where
  toJson items := .array (items.map toJson)
  readFrom?
    | source, .array items => readItems? source items
    | _, _ => none

/-- The readings of the values of fields, if all have one. -/
def readEntries? {α : Type} [JsonForm α] (source : Source) :
    List (String × Json) → Option (List (String × α))
  | [] => some []
  | (name, value) :: entries => do
    return (name, ← readFrom? source value) :: (← readEntries? source entries)

/-- A map is written as an object with a field for each name. -/
def Dict.toJson {α : Type} [JsonForm α] (d : Dict α) : Json :=
  .object (d.map fun entry => (entry.1, TableClient.toJson entry.2))

/-- The map that an object is. Of two fields with one name the last stays. -/
def Dict.readFrom? {α : Type} [JsonForm α] : Source → Json → Option (Dict α)
  | source, .object fields => (readEntries? source fields).map Dict.ofList
  | _, _ => none

instance {α : Type} [JsonForm α] : JsonForm (Dict α) := ⟨Dict.toJson, Dict.readFrom?⟩

/-- An absent value is null, and null is an absent value. -/
instance {α : Type} [JsonForm α] : JsonForm (Option α) where
  toJson
    | none => .null
    | some value => toJson value
  readFrom?
    | _, .null => some none
    | source, json => (readFrom? source json).map some

/-! ## Alternatives -/

/-- An alternative without content is written as its name; it is read from its name or from an
    object whose only field has that name and is null. -/
def alternativeName? : Json → Option String
  | .string name => some name
  | .object [(name, .null)] => some name
  | _ => none

/-- The alternative among `all` that a value names. -/
def readAlternative? {α : Type} (all : List α) (name : α → String) (json : Json) : Option α :=
  (alternativeName? json).bind fun text => all.find? fun x => name x == text

end TableClient
