import TableClient.Attribute.Basic

/-!
# Attributes on the wire

An attribute is written as an object whose only field has the tag of its type as name. Nothing
else has a reading as an attribute.
-/

namespace TableClient.Attribute

mutual

/-- The value behind the tag of an attribute. -/
def content : Attribute → Json
  | .string value => .string value
  | .number text => .string text
  | .binary bytes => toJson bytes
  | .bool value => .bool value
  | .null flag => .bool flag
  | .map fields => .object (contentFields fields)
  | .list items => .array (contentItems items)
  | .stringSet items => toJson items
  | .numberSet items => toJson items
  | .binarySet items => toJson items

/-- The written forms of the attributes of a list. -/
def contentItems : List Attribute → List Json
  | [] => []
  | item :: items => .object [(item.tag, content item)] :: contentItems items

/-- The written forms of the attributes of a map. -/
def contentFields : List (String × Attribute) → List (String × Json)
  | [] => []
  | (name, value) :: fields =>
    (name, .object [(value.tag, content value)]) :: contentFields fields

end

mutual

/-- The attribute that a value is the written form of. -/
def read? (source : Source) : Json → Option Attribute
  | .object [(tag, .object fields)] =>
    if tag = "M" then (readFields? source fields).map fun read => .map (Dict.ofList read) else none
  | .object [(tag, .array items)] =>
    if tag = "L" then (readItems? source items).map .list
    else if tag = "B" then (readFrom? source (.array items)).map .binary
    else if tag = "SS" then (readFrom? source (.array items)).map .stringSet
    else if tag = "NS" then (readFrom? source (.array items)).map .numberSet
    else if tag = "BS" then (readFrom? source (.array items)).map .binarySet
    else none
  | .object [(tag, .string value)] =>
    if tag = "S" then some (.string value) else if tag = "N" then some (.number value) else none
  | .object [(tag, .bool value)] =>
    if tag = "BOOL" then some (.bool value) else if tag = "NULL" then some (.null value) else none
  | _ => none

/-- The attributes that the items of an array are the written forms of. -/
def readItems? (source : Source) : List Json → Option (List Attribute)
  | [] => some []
  | item :: items => do return (← read? source item) :: (← readItems? source items)

/-- The attributes that the fields of an object are the written forms of. -/
def readFields? (source : Source) : List (String × Json) → Option (List (String × Attribute))
  | [] => some []
  | (name, value) :: fields => do
    return (name, ← read? source value) :: (← readFields? source fields)

end

instance : JsonForm Attribute where
  toJson value := .object [(value.tag, value.content)]
  readFrom? := read?

end TableClient.Attribute
