import TableClient.Key.Layout
import TableClient.Names

/-!
# Item schemas

The key layouts of a type of items: the primary key and the secondary indexes with what they
project. An index is local when it has the hash attribute of the table and global otherwise.
-/

namespace TableClient

/-- The kind of a secondary index. -/
inductive IndexKind where
  /-- Has the hash attribute of the table. -/
  | localToTable
  /-- Has a hash attribute of its own. -/
  | global
deriving DecidableEq

/-- The name of a kind on the wire. -/
def IndexKind.name : IndexKind → String
  | .localToTable => "Local"
  | .global => "Global"

instance : JsonForm IndexKind where
  toJson kind := .string kind.name
  readFrom? _ := readAlternative? [.localToTable, .global] IndexKind.name

/-- A secondary index. -/
structure IndexSchema where
  name : String
  kind : IndexKind
  key : KeyLayout
  /-- The attributes that the index holds for each item. -/
  projections : List String
deriving DecidableEq

abbrev IndexSchema.form : RecordForm IndexSchema :=
  .madeOf (fun index => (index.name, index.kind, index.key, index.projections))
    (fun (name, kind, key, projections) => { name, kind, key, projections })
    (.and (.required "name") <| .and (.required "kind") <| .and (.required "key") <|
      .required "projections")

instance : JsonForm IndexSchema := IndexSchema.form.jsonForm

/-- The key layouts of a type of items. -/
structure ItemSchema where
  primary : KeyLayout
  indexes : List IndexSchema := []
deriving DecidableEq

/-- Why a schema cannot be declared, or an item has no key. -/
inductive SchemaError where
  /-- The primary key has a fault. -/
  | primaryFault (fault : LayoutFault)
  /-- The key of an index has a fault. -/
  | indexFault (index : String) (fault : LayoutFault)
  /-- An attribute of the primary key is missing or not set. -/
  | incompleteKey (attributeName : String)
  /-- No key can be formed at all. -/
  | noValidKey
deriving DecidableEq

/-- The text of an error. -/
def SchemaError.message : SchemaError → String
  | .primaryFault fault => "invalid key schema: " ++ fault.message
  | .indexFault index fault =>
    "invalid key schema: index '" ++ index ++ "': invalid key schema: " ++ fault.message
  | .incompleteKey attributeName =>
    "incomplete primary key: missing or empty attribute '" ++ attributeName ++ "'"
  | .noValidKey => "no valid key: neither the primary key nor any secondary index key is set"

namespace ItemSchema

abbrev form : RecordForm ItemSchema :=
  .madeOf (fun schema => (schema.primary, schema.indexes))
    (fun (primary, indexes) => { primary, indexes })
    (.and (.required "primary_key") <| .required "indexes")

instance : JsonForm ItemSchema := form.jsonForm

/-- Adds an index behind the others; it projects the key of the table and its own. -/
def addIndex (schema : ItemSchema) (name : String) (key : KeyLayout) : ItemSchema :=
  let kind := if key.nameOf? .hash = schema.primary.nameOf? .hash then .localToTable else .global
  let projections := addNames [] (schema.primary.names ++ key.names)
  { schema with indexes := schema.indexes ++ [⟨name, kind, key, projections⟩] }

/-- Adds an index that has the hash attribute of the table and the given range attribute. -/
def addLocalIndex (schema : ItemSchema) (name range : String) : ItemSchema :=
  schema.addIndex name (.ofHashRange ((schema.primary.nameOf? .hash).getD "") range)

/-- Adds projections to the first index of a name among some. -/
def projectFirst (name : String) (attributes : List String) : List IndexSchema → List IndexSchema
  | [] => []
  | index :: rest =>
    if index.name = name then
      { index with projections := addNames index.projections attributes } :: rest
    else index :: projectFirst name attributes rest

/-- Adds projections to the first index of a name, if there is one. -/
def project (schema : ItemSchema) (name : String) (attributes : List String) : ItemSchema :=
  { schema with indexes := projectFirst name attributes schema.indexes }

/-- The first index of a name. -/
def index? (schema : ItemSchema) (name : String) : Option IndexSchema :=
  schema.indexes.find? fun index => index.name = name

/-- The first fault of the primary key or, in order, of the index keys. -/
def fault? (schema : ItemSchema) : Option SchemaError :=
  match schema.primary.fault? with
  | some fault => some (.primaryFault fault)
  | none => schema.indexes.findSome? fun index => index.key.fault?.map (.indexFault index.name)

end ItemSchema

end TableClient
