import TableClient.Key.Resolve
import TableClient.MessagePack

/-!
# Key identity

Within a batch a key is known by the MessagePack bytes of its table and its values, in the order
of its layout. An attribute is written as a map from its tag to its content, and a missing one as
nil.
-/

namespace TableClient

open MessagePack (Bytes)

namespace Attribute

mutual

/-- The bytes of an attribute. -/
def pack : Attribute → Bytes
  | .string value => tagged "S" (MessagePack.string value)
  | .number text => tagged "N" (MessagePack.string text)
  | .binary bytes => tagged "B" (packBytes bytes)
  | .bool value => tagged "BOOL" (MessagePack.bool value)
  | .null flag => tagged "NULL" (MessagePack.bool flag)
  | .map fields => tagged "M" (MessagePack.map (packFields fields))
  | .list items => tagged "L" (MessagePack.array (packItems items))
  | .stringSet items => tagged "SS" (MessagePack.array (items.map MessagePack.string))
  | .numberSet items => tagged "NS" (MessagePack.array (items.map MessagePack.string))
  | .binarySet items => tagged "BS" (MessagePack.array (items.map packBytes))
where
  /-- A content under its tag. -/
  tagged (tag : String) (content : Bytes) : Bytes :=
    MessagePack.map [(MessagePack.string tag, content)]
  /-- A binary as an array of integers. -/
  packBytes (bytes : List UInt8) : Bytes := MessagePack.array (bytes.map MessagePack.byte)

/-- The bytes of each attribute of a list. -/
def packItems : List Attribute → List Bytes
  | [] => []
  | item :: items => pack item :: packItems items

/-- The bytes of the name and the attribute of each entry of a map. -/
def packFields : List (String × Attribute) → List (Bytes × Bytes)
  | [] => []
  | (name, value) :: fields => (MessagePack.string name, pack value) :: packFields fields

end

/-- The bytes of an attribute that may be missing. -/
def packOption : Option Attribute → Bytes
  | none => MessagePack.nil
  | some value => value.pack

end Attribute

/-- What a key is known by within a batch: the bytes of its table and of the values that `item`
    has for the attributes of the layout. -/
def KeyLayout.identity (layout : KeyLayout) (table : String) (item : AttributeMap) : Bytes :=
  MessagePack.array
    [MessagePack.string table,
      MessagePack.array (layout.names.map fun name => Attribute.packOption (Dict.get? item name))]

end TableClient
