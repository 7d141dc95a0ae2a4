import TableClient.Attribute.Form
import TableClient.Json.Record

/-!
# Queries and scans

The inputs of queries and scans and the pages they are answered with. A query selects a
partition by its key condition; a scan goes over the whole table or index.
-/

namespace TableClient.Protocol

/-- Asks for a page of the items that satisfy a key condition. -/
structure Query where
  table : String := ""
  index : Option String := none
  keyCondition : String := ""
  filter : Option String := none
  names : Dict String := []
  values : Dict Attribute := []
  limit : Option UInt64 := none
  forward : Bool := false
  consistentRead : Bool := false
  startKey : Option AttributeMap := none
deriving DecidableEq

abbrev Query.form : RecordForm Query :=
  .madeOf
    (fun input => (input.table, input.index, input.keyCondition, input.filter, input.names,
      input.values, input.limit, input.forward, input.consistentRead, input.startKey))
    (fun (table, index, keyCondition, filter, names, values, limit, forward, consistentRead,
        startKey) =>
      { table, index, keyCondition, filter, names, values, limit, forward, consistentRead,
        startKey })
    (.and (.withDefault "table" "") <| .and (.leftOut "index_name") <|
      .and (.withDefault "key_condition_expression" "") <| .and (.leftOut "filter_expression") <|
      .and (.withDefault "expression_attribute_names" []) <|
      .and (.withDefault "expression_attribute_values" []) <| .and (.leftOut "limit") <|
      .and (.withDefault "scan_index_forward" false) <|
      .and (.withDefault "consistent_read" false) <| .leftOut "exclusive_start_key")

instance : JsonForm Query := Query.form.jsonForm

/-- Asks for a page of all items. -/
structure Scan where
  table : String := ""
  index : Option String := none
  filter : Option String := none
  names : Dict String := []
  values : Dict Attribute := []
  limit : Option UInt64 := none
  consistentRead : Bool := false
  startKey : Option AttributeMap := none
deriving DecidableEq

abbrev Scan.form : RecordForm Scan :=
  .madeOf
    (fun input => (input.table, input.index, input.filter, input.names, input.values, input.limit,
      input.consistentRead, input.startKey))
    (fun (table, index, filter, names, values, limit, consistentRead, startKey) =>
      { table, index, filter, names, values, limit, consistentRead, startKey })
    (.and (.withDefault "table" "") <| .and (.leftOut "index_name") <|
      .and (.leftOut "filter_expression") <| .and (.withDefault "expression_attribute_names" []) <|
      .and (.withDefault "expression_attribute_values" []) <| .and (.leftOut "limit") <|
      .and (.withDefault "consistent_read" false) <| .leftOut "exclusive_start_key")

instance : JsonForm Scan := Scan.form.jsonForm

/-- A page of items, and the key to go on from if there are more. -/
structure Page where
  items : List AttributeMap := []
  lastKey : Option AttributeMap := none
deriving DecidableEq

abbrev Page.form : RecordForm Page :=
  .madeOf (fun page => (page.items, page.lastKey)) (fun (items, lastKey) => { items, lastKey })
    (.and (.withDefault "items" []) <| .withDefault "last_evaluated_key" none)

instance : JsonForm Page := Page.form.jsonForm

end TableClient.Protocol
