import TableClient.Attribute.Basic

/-!
# Documents as attributes

A document, a plain JSON value, is stored as an attribute: null as NULL, a number as its text, an
array as a list, an object as a map. The way back also takes the values that no document is
stored as, namely binaries and sets, which become arrays.

Results:
* `keys_ofFields`: an object is stored field by field under the same names.
-/

namespace TableClient

/-- Why a document cannot be stored, or an attribute cannot be taken back. -/
inductive CodecError where
  /-- The document does not fit the type of item that was asked for. -/
  | mismatch
  /-- An item has to be an object; holds the kind of the document. -/
  | notAMap (kind : String)
  /-- The text of a number denotes no integer of 64 bits and no finite float. -/
  | invalidNumber (text : String)
deriving DecidableEq

/-- The text of an error. -/
def CodecError.message : CodecError → String
  | .mismatch => "serialization error"
  | .notAMap kind => "item must serialize to a map, got " ++ kind
  | .invalidNumber text => "invalid number attribute: " ++ text

namespace Attribute

mutual

/-- The attribute that a document is stored as. -/
def ofDocument : Json → Attribute
  | .null => .null true
  | .bool value => .bool value
  | .number value => .number value.toText
  | .string value => .string value
  | .array items => .list (ofItems items)
  | .object fields => .map (ofFields fields)

/-- The attributes that the items of an array are stored as. -/
def ofItems : List Json → List Attribute
  | [] => []
  | item :: items => ofDocument item :: ofItems items

/-- The attributes that the fields of an object are stored as. -/
def ofFields : List (String × Json) → List (String × Attribute)
  | [] => []
  | (name, value) :: fields => (name, ofDocument value) :: ofFields fields

end

/-- The JSON number that the text of a number attribute denotes. -/
def readNumber (text : String) : Except CodecError Json :=
  match JsonNumber.ofText? text with
  | some value => .ok (.number value)
  | none => .error (.invalidNumber text)

/-- A binary as an array of integers. -/
def bytesDocument (bytes : List UInt8) : Json := .array (bytes.map fun byte => .nat byte.toNat)

mutual

/-- The document that an attribute stands for. -/
def toDocument : Attribute → Except CodecError Json
  | .string value => .ok (.string value)
  | .number text => readNumber text
  | .binary bytes => .ok (bytesDocument bytes)
  | .bool value => .ok (.bool value)
  | .null _ => .ok .null
  | .map fields => (toFields fields).map .object
  | .list items => (toItems items).map .array
  | .stringSet items => .ok (.array (items.map .string))
  | .numberSet items => (items.mapM readNumber).map .array
  | .binarySet items => .ok (.array (items.map bytesDocument))

/-- The documents that the attributes of a list stand for; the first failure counts. -/
def toItems : List Attribute → Except CodecError (List Json)
  | [] => .ok []
  | item :: items => do return (← toDocument item) :: (← toItems items)

/-- The documents that the attributes of a map stand for, taken in the order of the names. -/
def toFields : List (String × Attribute) → Except CodecError (List (String × Json))
  | [] => .ok []
  | (name, value) :: fields => do return (name, ← toDocument value) :: (← toFields fields)

end

end Attribute

namespace AttributeMap

/-- The attributes that a document is stored as; it has to be an object. -/
def ofDocument : Json → Except CodecError AttributeMap
  | .object fields => .ok (Attribute.ofFields fields)
  | json => .error (.notAMap json.kind)

/-- The object that the attributes of an item stand for. -/
def toDocument (item : AttributeMap) : Except CodecError Json :=
  (Attribute.toFields item).map .object

end AttributeMap

/-! ## Lemmas -/

namespace Attribute

/-- Storing keeps the names of the fields. -/
theorem keys_ofFields (fields : Dict Json) : Dict.keys (ofFields fields) = Dict.keys fields := by
  induction fields with
  | nil => rfl
  | cons entry rest ih =>
    obtain ⟨k, v⟩ := entry
    simp [ofFields, ih]

end Attribute

end TableClient
