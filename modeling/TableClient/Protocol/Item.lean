import TableClient.Attribute.Form
import TableClient.Json.Record

/-!
# Calls on single items

The inputs and replies of the calls that read, write or delete one item.
-/

namespace TableClient.Protocol

/-- Asks for the item of a primary key. -/
structure GetItem where
  table : String
  key : AttributeMap
  consistentRead : Bool
deriving DecidableEq

abbrev GetItem.form : RecordForm GetItem :=
  .madeOf (fun input => (input.table, input.key, input.consistentRead))
    (fun (table, key, consistentRead) => { table, key, consistentRead })
    (.and (.required "table") <| .and (.required "key") <| .withDefault "consistent_read" false)

instance : JsonForm GetItem := GetItem.form.jsonForm

/-- The item that was asked for, if there is one. -/
structure GetItemReply where
  item : Option AttributeMap := none
deriving DecidableEq

abbrev GetItemReply.form : RecordForm GetItemReply :=
  .madeOf GetItemReply.item GetItemReply.mk (.withDefault "item" none)

instance : JsonForm GetItemReply := GetItemReply.form.jsonForm

/-- Stores an item. -/
structure PutItem where
  table : String
  item : AttributeMap
deriving DecidableEq

abbrev PutItem.form : RecordForm PutItem :=
  .madeOf (fun input => (input.table, input.item)) (fun (table, item) => { table, item })
    (.and (.required "table") <| .required "item")

instance : JsonForm PutItem := PutItem.form.jsonForm

/-- Deletes the item of a primary key. -/
structure DeleteItem where
  table : String
  key : AttributeMap
deriving DecidableEq

abbrev DeleteItem.form : RecordForm DeleteItem :=
  .madeOf (fun input => (input.table, input.key)) (fun (table, key) => { table, key })
    (.and (.required "table") <| .required "key")

instance : JsonForm DeleteItem := DeleteItem.form.jsonForm

end TableClient.Protocol
