import TableClient.Key.Resolve
import TableClient.Attribute.Document

/-!
# Item types and the schema cache

A type of items has a name, may declare a schema, and says which documents are items of it. The
cache keeps the schema that a type declared when it was first used, after checking it; a type
without schema is keyed by all attributes of the item at hand, which is never kept.

Results:
* `schemaFor_cached`: a kept schema is what every later call returns, and stays kept.
-/

namespace TableClient

/-- A type of items. -/
structure ItemType where
  /-- What the type is known by; two types of one name are the same type. -/
  name : String
  /-- The key layouts that the type declares, if it does. -/
  schema? : Option ItemSchema
  /-- The item of this type that a document is, if it is one. -/
  read? : Json → Option Json

/-- The item of a type that attributes stand for. -/
def ItemType.decode (type : ItemType) (item : AttributeMap) : Except CodecError Json := do
  match type.read? (← item.toDocument) with
  | some document => .ok document
  | none => .error .mismatch

/-- The schemas kept, by the name of their type. -/
structure SchemaCache where
  schemas : Dict ItemSchema := []

namespace SchemaCache

/-- The number of schemas kept. -/
def size (cache : SchemaCache) : Nat := cache.schemas.length

/-- The schema for an item of a type, and the cache after the call. -/
def schemaFor (cache : SchemaCache) (type : ItemType) (item : AttributeMap) :
    Except SchemaError ItemSchema × SchemaCache :=
  match Dict.get? cache.schemas type.name with
  | some schema => (.ok schema, cache)
  | none =>
    match type.schema? with
    | none => (.ok ⟨.ofDocument (Dict.keys item), []⟩, cache)
    | some schema =>
      match schema.fault? with
      | some error => (.error error, cache)
      | none => (.ok schema, ⟨Dict.insert cache.schemas type.name schema⟩)

/-- A kept schema is what every later call returns, and stays kept. -/
theorem schemaFor_cached (cache : SchemaCache) (type : ItemType) (item : AttributeMap)
    {schema : ItemSchema} (h : Dict.get? cache.schemas type.name = some schema) :
    cache.schemaFor type item = (.ok schema, cache) := by
  simp [schemaFor, h]

end SchemaCache

end TableClient
