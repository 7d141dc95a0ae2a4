import TableClient.Key.Schema

/-!
# Resolved keys

The key of an item: the values of the key attributes, all of which have to be set. An item is
found by its primary key or else by the first secondary index whose key it has.

Results:
* `valuesOf_isOk_iff`: a key is complete exactly when each of its attributes is set.
-/

namespace TableClient

/-- The values of a key, and the index it belongs to unless it is the primary key. -/
structure ResolvedKey where
  values : AttributeMap
  index? : Option (String × IndexKind)
deriving DecidableEq

/-- Whether a key is a primary key. -/
def ResolvedKey.isPrimary (key : ResolvedKey) : Bool := key.index?.isNone

namespace AttributeMap

/-- The value of an attribute that counts as set. -/
def setValue? (item : AttributeMap) (name : String) : Option Attribute :=
  (Dict.get? item name).filter fun value => !value.isUnset

end AttributeMap

/-- The values that an item has for some names, added to `values`; fails with the first name whose
    attribute is not set. -/
def collectValues (item : AttributeMap) (values : AttributeMap) :
    List String → Except String AttributeMap
  | [] => .ok values
  | name :: names =>
    match item.setValue? name with
    | some value => collectValues item (Dict.insert values name value) names
    | none => .error name

/-- The key of an item in a layout; fails with the first attribute that is not set. -/
def KeyLayout.valuesOf (layout : KeyLayout) (item : AttributeMap) : Except String AttributeMap :=
  collectValues item [] layout.names

namespace ItemSchema

/-- The primary key of an item. A layout without attributes gives no key. -/
def primaryKey (schema : ItemSchema) (item : AttributeMap) : Except SchemaError ResolvedKey :=
  if schema.primary.names.isEmpty then .error .noValidKey
  else
    match schema.primary.valuesOf item with
    | .ok values => .ok ⟨values, none⟩
    | .error name => .error (.incompleteKey name)

/-- The key of an item in the first index whose key attributes are all set. -/
def secondaryKey? (schema : ItemSchema) (item : AttributeMap) : Option ResolvedKey :=
  schema.indexes.findSome? fun index =>
    (index.key.valuesOf item).toOption.map fun values => ⟨values, some (index.name, index.kind)⟩

/-- The primary key of an item or else its key in an index. -/
def anyKey (schema : ItemSchema) (item : AttributeMap) : Except SchemaError ResolvedKey :=
  match schema.primaryKey item with
  | .ok key => .ok key
  | .error _ =>
    match schema.secondaryKey? item with
    | some key => .ok key
    | none => .error .noValidKey

end ItemSchema

/-! ## Lemmas -/

theorem collectValues_isOk_iff (item values : AttributeMap) (names : List String) :
    (collectValues item values names).toOption.isSome ↔
      ∀ name ∈ names, (item.setValue? name).isSome := by
  induction names generalizing values with
  | nil => simp [collectValues, Except.toOption]
  | cons name names ih =>
    simp only [collectValues]
    cases h : item.setValue? name with
    | none => simp [Except.toOption, h]
    | some value => simp [ih, h]

/-- A key is complete exactly when each of its attributes is set. -/
theorem valuesOf_isOk_iff (layout : KeyLayout) (item : AttributeMap) :
    (layout.valuesOf item).toOption.isSome ↔
      ∀ name ∈ layout.names, (item.setValue? name).isSome :=
  collectValues_isOk_iff item [] layout.names

end TableClient
