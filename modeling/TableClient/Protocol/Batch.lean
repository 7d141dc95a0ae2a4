import TableClient.Attribute.Form
import TableClient.Json.Record

/-!
# Batch calls

The inputs and replies of the calls that read or write several items of several tables. A store
may leave a part of a batch undone, and then echoes that part in its reply.
-/

namespace TableClient.Protocol

/-- The keys that are asked for in one table. -/
structure KeySelection where
  keys : List AttributeMap := []
  consistentRead : Bool := false
deriving DecidableEq

abbrev KeySelection.form : RecordForm KeySelection :=
  .madeOf (fun selection => (selection.keys, selection.consistentRead))
    (fun (keys, consistentRead) => { keys, consistentRead })
    (.and (.withDefault "keys" []) <| .withDefault "consistent_read" false)

instance : JsonForm KeySelection := KeySelection.form.jsonForm

/-- Asks for items by their keys, by table. -/
structure BatchGet where
  tables : Dict KeySelection := []
deriving DecidableEq

abbrev BatchGet.form : RecordForm BatchGet :=
  .madeOf BatchGet.tables BatchGet.mk (.withDefault "request_items" [])

instance : JsonForm BatchGet := BatchGet.form.jsonForm

/-- The items found and the keys that were not looked for, by table. -/
structure BatchGetReply where
  responses : Dict (List AttributeMap) := []
  unprocessed : Dict KeySelection := []
deriving DecidableEq

abbrev BatchGetReply.form : RecordForm BatchGetReply :=
  .madeOf (fun reply => (reply.responses, reply.unprocessed))
    (fun (responses, unprocessed) => { responses, unprocessed })
    (.and (.withDefault "responses" []) <| .withDefault "unprocessed_keys" [])

instance : JsonForm BatchGetReply := BatchGetReply.form.jsonForm

/-- An entry of a batch of writes. -/
inductive Write where
  /-- Stores an item. -/
  | put (item : AttributeMap)
  /-- Deletes the item of a key. -/
  | delete (key : AttributeMap)
deriving DecidableEq

/-- The attributes that a write holds. -/
def Write.attributes : Write → AttributeMap
  | .put item => item
  | .delete key => key

instance : JsonForm Write where
  toJson
    | .put item => .object [("put", (RecordForm.required "item").toJson item)]
    | .delete key => .object [("delete", (RecordForm.required "key").toJson key)]
  readFrom?
    | source, .object [(kind, content)] =>
      if kind = "put" then
        ((RecordForm.required "item").readContent? source content).map .put
      else if kind = "delete" then
        ((RecordForm.required "key").readContent? source content).map .delete
      else none
    | _, _ => none

/-- Writes items, by table. -/
structure BatchWrite where
  tables : Dict (List Write) := []
deriving DecidableEq

abbrev BatchWrite.form : RecordForm BatchWrite :=
  .madeOf BatchWrite.tables BatchWrite.mk (.withDefault "request_items" [])

instance : JsonForm BatchWrite := BatchWrite.form.jsonForm

/-- The writes that were not done, by table. -/
structure BatchWriteReply where
  unprocessed : Dict (List Write) := []
deriving DecidableEq

abbrev BatchWriteReply.form : RecordForm BatchWriteReply :=
  .madeOf BatchWriteReply.unprocessed BatchWriteReply.mk (.withDefault "unprocessed_items" [])

instance : JsonForm BatchWriteReply := BatchWriteReply.form.jsonForm

end TableClient.Protocol
