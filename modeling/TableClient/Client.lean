import TableClient.Batch.Run
import TableClient.Query.Pages
import TableClient.Stream.Feed

/-!
# The client

Operations on single items, and the ways into queries, batches and streams. A client holds its
settings and the schemas of the item types that it has met; an operation that meets a new type
gives the client back with its schema.
-/

namespace TableClient

/-- A client of the store. -/
structure Client where
  config : Config := {}
  cache : SchemaCache := {}

namespace Client

/-- The attributes of an item, and the schema and key they give in the cache. -/
structure Resolved where
  attributes : AttributeMap
  schema : ItemSchema
  key : ResolvedKey

/-- Finds the key of attributes by `keyOf`. -/
def resolve (client : Client) (type : ItemType)
    (keyOf : ItemSchema → AttributeMap → Except SchemaError ResolvedKey)
    (attributes : Except CodecError AttributeMap) : Except Error Resolved × Client :=
  match attributes with
  | .error error => (.error (.codec error), client)
  | .ok attributes =>
    let (schema, cache) := client.cache.schemaFor type attributes
    let client := { client with cache }
    match schema with
    | .error error => (.error (.schema error), client)
    | .ok schema =>
      (((keyOf schema attributes).mapError .schema).map fun key => ⟨attributes, schema, key⟩,
        client)

/-- Sends the request that a resolved key gives, or reports why there is none. -/
def withKey {α : Type} (resolved : Except Error Resolved)
    (send : Resolved → Exchange (Except Error α)) : Exchange (Except Error α) :=
  match resolved with
  | .ok resolved => send resolved
  | .error error => .done (.error error)

/-! ## Single items -/

/-- Stores an item without its empty attributes. -/
def put (client : Client) (type : ItemType) (table : String) (item : Json) :
    Exchange (Except Error Unit) × Client :=
  let (resolved, client) := client.resolve type ItemSchema.primaryKey
    ((AttributeMap.ofDocument item).map AttributeMap.withoutEmpty)
  (withKey resolved fun resolved =>
    .call .putItem (.putItem ⟨table, resolved.attributes⟩) Json (·.map fun _ => ()), client)

/-- Deletes the item that has the primary key of an item. -/
def delete (client : Client) (type : ItemType) (table : String) (item : Json) :
    Exchange (Except Error Unit) × Client :=
  let (resolved, client) := client.resolve type ItemSchema.primaryKey
    (AttributeMap.ofDocument item)
  (withKey resolved fun resolved =>
    .call .deleteItem (.deleteItem ⟨table, resolved.key.values⟩) Json (·.map fun _ => ()), client)

/-- The attributes of a key that have a value, each with its position in the layout from 1 on. -/
def indexParts (layout : KeyLayout) (values : AttributeMap) : List (String × Nat × Attribute) :=
  (layout.names.zipIdx 1).filterMap fun (name, position) =>
    (Dict.get? values name).map fun value => (name, position, value)

/-- The query for one item with the given values of the key of an index. Names are bound to
    placeholders as they are, whatever characters they hold. -/
def indexLookup (table index : String) (layout : KeyLayout) (values : AttributeMap)
    (consistent : Bool) : Protocol.Query :=
  let parts := (indexParts layout values).zipIdx.map fun ((name, position, value), place) =>
    ("#n" ++ toString place, name, ":v" ++ toString position, value)
  { table
    index := some index
    keyCondition := " AND ".intercalate (parts.map fun (nameMark, _, valueMark, _) =>
      nameMark ++ " = " ++ valueMark)
    names := Dict.ofList (parts.map fun (nameMark, name, _, _) => (nameMark, name))
    values := Dict.ofList (parts.map fun (_, _, valueMark, value) => (valueMark, value))
    limit := some 1
    forward := true
    consistentRead := consistent }

/-- The item that was found, as an item of a type. -/
def found (type : ItemType) (item : Option AttributeMap) : Except Error Json :=
  match item with
  | none => .error .noSuchItem
  | some item => (type.decode item).mapError .codec

/-- Loads the item that has the primary key of an item or else its key in an index. A global index
    is never read consistently. -/
def get (client : Client) (type : ItemType) (table : String) (item : Json) (consistent : Bool) :
    Exchange (Except Error Json) × Client :=
  let (resolved, client) := client.resolve type ItemSchema.anyKey (AttributeMap.ofDocument item)
  (withKey resolved fun resolved =>
    match resolved.key.index? with
    | none =>
      .call .getItem (.getItem ⟨table, resolved.key.values, consistent⟩) Protocol.GetItemReply
        fun reply => reply.bind fun reply => found type reply.item
    | some (name, kind) =>
      match resolved.schema.index? name with
      | none => .done (.error (.schema .noValidKey))
      | some index =>
        let input := indexLookup table name index.key resolved.key.values
          (consistent && kind ≠ .global)
        .call .queryIndex (.query input) Protocol.Page
          fun reply => reply.bind fun page => found type page.items.head?, client)

/-! ## Batches and streams -/

/-- A batch without tables. -/
def batch (purpose : Batch.Purpose) (consistent : Bool) : Batch := { purpose, consistent }

/-- Registers the items of a table for a batch. -/
def register (client : Client) (batch : Batch) (table : String) (type : ItemType)
    (items : List Json) : Batch × Client :=
  let (batch, cache) := batch.register client.cache table type items
  (batch, { client with cache })

/-- Runs a batch. -/
def runBatch (client : Client) : Conversation Batch.Running (Except Error Unit × Batch) :=
  Batch.run client.config

/-- Follows a stream by its name. -/
def streamByArn (client : Client) (streamArn : String) : Feed := .ofArn client.config streamArn

/-- Follows the latest stream of a table. -/
def stream (client : Client) (table : String) : Exchange (Except Error Feed) :=
  .call .describeTable (.describeTable table) Protocol.TableDescription fun reply =>
    reply.bind fun description =>
      match description.latestStreamArn.filter fun streamArn => !streamArn.isEmpty with
      | some streamArn => .ok (client.streamByArn streamArn)
      | none => .error (.stream (.notEnabled table))

end Client

end TableClient
