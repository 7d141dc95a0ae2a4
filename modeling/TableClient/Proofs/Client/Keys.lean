import Mathlib
import TableClient.Client
import TableClient.Proofs.Attribute.Prune
import TableClient.Proofs.Key.Resolve

/-!
# The key of an item that was put

A put drops the empty strings and NULLs of an item and finds the key of what is left. A delete and a
get find the key of the item as it is. So they ask for the key of what was stored only if nothing
was dropped of the attributes that the item is keyed by; an item of a type without schema is keyed
by all its attributes, and one that is dropped makes its key incomplete.

Results:
* `primaryKey_eq_ok_iff`: when an item has a primary key, and which.
* `asksFor_iff`: a delete and a get ask for the primary key of the item.
* `put_delete_get_key`: when they ask for the key of what a put has stored.
-/

namespace TableClient

/-! ## Keys -/

/-- Whether a key holds the attributes of a layout as they stand in an item, and no others. -/
def KeyLayout.Selects (layout : KeyLayout) (item key : AttributeMap) : Prop :=
  ∀ name, Dict.get? key name = if name ∈ layout.names then Dict.get? item name else none

namespace ItemSchema

variable {schema : ItemSchema} {item : AttributeMap}

theorem primaryKey_eq_ok_iff {key : ResolvedKey} : schema.primaryKey item = .ok key ↔
    schema.primary.names ≠ [] ∧ schema.primary.valuesOf item = .ok key.values ∧
      key.index? = none := by
  obtain ⟨values, index?⟩ := key
  rw [primaryKey]
  split_ifs with hnames
  · simp [List.isEmpty_iff.mp hnames]
  · have hne : schema.primary.names ≠ [] := fun h => hnames (List.isEmpty_iff.mpr h)
    cases schema.primary.valuesOf item with
    | error name => simp
    | ok found => simp [hne, eq_comm (a := none)]

/-- An item has a primary key if each of the key attributes is set, and there is one. -/
theorem exists_primaryKey_iff : (∃ key, schema.primaryKey item = .ok key) ↔
    schema.primary.names ≠ [] ∧ ∀ name ∈ schema.primary.names, (item.setValue? name).isSome := by
  rw [← valuesOf_isOk_iff]
  constructor
  · rintro ⟨key, hkey⟩
    obtain ⟨hnames, hvalues, -⟩ := primaryKey_eq_ok_iff.mp hkey
    exact ⟨hnames, by rw [hvalues]; rfl⟩
  · rintro ⟨hnames, hvalues⟩
    cases hkey : schema.primary.valuesOf item with
    | error name => simp [hkey, Except.toOption] at hvalues
    | ok key => exact ⟨⟨key, none⟩, primaryKey_eq_ok_iff.mpr ⟨hnames, hkey, rfl⟩⟩

/-- An item without primary key has no key attributes, or one of them is not set. -/
theorem primaryKey_eq_error {error : SchemaError} (h : schema.primaryKey item = .error error) :
    schema.primary.names = [] ∨
      ∃ name ∈ schema.primary.names, item.setValue? name = none ∧ error = .incompleteKey name := by
  rw [primaryKey] at h
  split_ifs at h with hnames
  · exact .inl (List.isEmpty_iff.mp hnames)
  · cases hvalues : schema.primary.valuesOf item with
    | ok values => simp [hvalues] at h
    | error name =>
      rw [hvalues] at h
      cases h
      obtain ⟨hmem, hunset⟩ := setValue?_of_collectValues_eq_error hvalues
      exact .inr ⟨name, hmem, hunset, rfl⟩

/-- A primary key holds the attributes of the primary layout as they stand in the item. -/
theorem selects_of_primaryKey {key : ResolvedKey} (h : schema.primaryKey item = .ok key) :
    schema.primary.Selects item key.values :=
  KeyLayout.get?_valuesOf (primaryKey_eq_ok_iff.mp h).2.1

end ItemSchema

namespace Client

/-! ## What is asked for -/

/-- A delete and a get of an item both ask the store for the item with a certain primary key. -/
def AsksFor (client : Client) (type : ItemType) (table : String) (item : Json) (consistent : Bool)
    (key : AttributeMap) : Prop :=
  (client.delete type table item).1.request? = some (.deleteItem ⟨table, key⟩) ∧
    (client.get type table item consistent).1.request? = some (.getItem ⟨table, key, consistent⟩)

variable {client : Client} {type : ItemType} {table : String} {item : Json}
  {attributes : AttributeMap} {schema : ItemSchema}

/-- What is found of attributes for which there is a schema. -/
theorem fst_resolve (keyOf : ItemSchema → AttributeMap → Except SchemaError ResolvedKey)
    (hschema : (client.cache.schemaFor type attributes).1 = .ok schema) :
    (client.resolve type keyOf (.ok attributes)).1 =
      ((keyOf schema attributes).mapError .schema).map fun key => ⟨attributes, schema, key⟩ := by
  rw [resolve]
  generalize client.cache.schemaFor type attributes = found at hschema ⊢
  obtain ⟨outcome, cache⟩ := found
  cases hschema
  rfl

theorem fst_delete (hitem : AttributeMap.ofDocument item = .ok attributes)
    (hschema : (client.cache.schemaFor type attributes).1 = .ok schema) :
    (client.delete type table item).1 =
      match schema.primaryKey attributes with
      | .ok key => .call .deleteItem (.deleteItem ⟨table, key.values⟩) Json (·.map fun _ => ())
      | .error error => .done (.error (.schema error)) := by
  have hresolve := fst_resolve ItemSchema.primaryKey hschema
  rw [delete, hitem]
  simp only [hresolve]
  cases schema.primaryKey attributes <;> rfl

theorem fst_get_of_primaryKey (hitem : AttributeMap.ofDocument item = .ok attributes)
    (hschema : (client.cache.schemaFor type attributes).1 = .ok schema) {key : ResolvedKey}
    (hkey : schema.primaryKey attributes = .ok key) (consistent : Bool) :
    (client.get type table item consistent).1.request? =
      some (.getItem ⟨table, key.values, consistent⟩) := by
  have hresolve := fst_resolve ItemSchema.anyKey hschema
  have hindex := (ItemSchema.primaryKey_eq_ok_iff.mp hkey).2.2
  rw [ItemSchema.anyKey, hkey] at hresolve
  rw [get, hitem]
  simp only [hresolve, Except.mapError, Except.map, withKey, hindex]
  rfl

/-- Without primary key and without index a get asks for nothing. -/
theorem fst_get_of_noKey (hitem : AttributeMap.ofDocument item = .ok attributes)
    (hschema : (client.cache.schemaFor type attributes).1 = .ok schema) {error : SchemaError}
    (hkey : schema.primaryKey attributes = .error error) (hindexes : schema.indexes = [])
    (consistent : Bool) :
    (client.get type table item consistent).1 = .done (.error (.schema .noValidKey)) := by
  have hresolve := fst_resolve ItemSchema.anyKey hschema
  rw [ItemSchema.anyKey, hkey, ItemSchema.secondaryKey?, hindexes] at hresolve
  rw [get, hitem]
  simp only [hresolve]
  rfl

/-- A delete and a get ask for the primary key of the item, if it has one. -/
theorem asksFor_iff (hitem : AttributeMap.ofDocument item = .ok attributes)
    (hschema : (client.cache.schemaFor type attributes).1 = .ok schema) {consistent : Bool}
    {values : AttributeMap} : client.AsksFor type table item consistent values ↔
      ∃ key, schema.primaryKey attributes = .ok key ∧ key.values = values := by
  have hdelete := @fst_delete client type table item attributes schema hitem hschema
  rw [AsksFor, hdelete]
  cases hkey : schema.primaryKey attributes with
  | error error => simp [Exchange.request?]
  | ok key =>
    rw [fst_get_of_primaryKey hitem hschema hkey]
    simp [Exchange.call, Exchange.request?]

/-! ## The key of what was put -/

/-- A put sends the attributes of the item without the empty ones, and these have a key. -/
theorem put_request?_eq_some {sent : AttributeMap}
    (h : (client.put type table item).1.request? = some (.putItem ⟨table, sent⟩)) :
    ∃ attributes, AttributeMap.ofDocument item = .ok attributes ∧
      sent = attributes.withoutEmpty ∧
      (client.put type table item).2.cache = (client.cache.schemaFor type sent).2 ∧
      (∀ other, (client.cache.schemaFor type other).1 = .ok (client.cache.schemaOf type other)) ∧
      ∃ key, (client.cache.schemaOf type sent).primaryKey sent = .ok key := by
  unfold put resolve at h ⊢
  cases hitem : AttributeMap.ofDocument item with
  | error error =>
    rw [hitem] at h
    cases h
  | ok attributes =>
    rw [hitem] at h
    simp only [Except.map] at h ⊢
    generalize hfound : client.cache.schemaFor type attributes.withoutEmpty = found at h ⊢
    obtain ⟨_ | schema, cache⟩ := found
    · cases h
    · have hschemas := SchemaCache.schemaFor_eq_schemaOf (congrArg Prod.fst hfound)
      have hschema : schema = client.cache.schemaOf type attributes.withoutEmpty :=
        Except.ok.inj ((congrArg Prod.fst hfound).symm.trans (hschemas _))
      simp only at h ⊢
      cases hkey : schema.primaryKey attributes.withoutEmpty with
      | error error =>
        rw [hkey] at h
        cases h
      | ok key =>
        rw [hkey] at h
        obtain rfl : attributes.withoutEmpty = sent := by simpa [withKey, Exchange.call,
          Exchange.request?, Except.mapError] using h
        exact ⟨attributes, rfl, rfl, by rw [hfound], hschemas, key, hschema ▸ hkey⟩

/-- The attributes of an item have a key without the empty ones. -/
structure Accepted (cache : SchemaCache) (type : ItemType) (attributes sent : AttributeMap) :
    Prop where
  sorted : Dict.Sorted attributes
  sent_eq : sent = attributes.withoutEmpty
  names_ne_nil : (cache.schemaOf type sent).primary.names ≠ []
  set : ∀ name ∈ (cache.schemaOf type sent).primary.names, (sent.setValue? name).isSome

namespace Accepted

variable {cache : SchemaCache} {sent : AttributeMap}

/-- An attribute that is not empty is left. -/
theorem get?_sent (h : Accepted cache type attributes sent) {name : String} {value : Attribute}
    (hvalue : Dict.get? attributes name = some value) (hempty : value.isEmpty = false) :
    Dict.get? sent name = some value.prune := by
  rw [h.sent_eq, AttributeMap.get?_withoutEmpty attributes name h.sorted, hvalue]
  simp [Option.filter, hempty]

/-- An attribute of the key of what is left is set in the item. -/
theorem set_attributes (h : Accepted cache type attributes sent) {name : String}
    (hname : name ∈ (cache.schemaOf type sent).primary.names) :
    (attributes.setValue? name).isSome :=
  AttributeMap.isSome_setValue?_of_withoutEmpty h.sorted (h.sent_eq ▸ h.set name hname)

/-- A type with a schema gives the item and what is left of it the same key attributes. An item of
    another type has those of what is left too if none of its attributes is empty. -/
theorem mem_names_iff (h : Accepted cache type attributes sent)
    (hempty : (cache.schemaOf? type).isSome ∨ ∀ field ∈ attributes, field.2.isEmpty = false)
    (name : String) : name ∈ (cache.schemaOf type attributes).primary.names ↔
      name ∈ (cache.schemaOf type sent).primary.names := by
  unfold SchemaCache.schemaOf
  cases htype : cache.schemaOf? type with
  | some schema => rfl
  | none =>
    have hfields := hempty.resolve_left (by simp [htype])
    simp only [Option.getD_none, KeyLayout.names_ofDocument]
    constructor
    · intro hname
      obtain ⟨value, hvalue⟩ := Dict.mem_keys_iff.mp hname
      exact Dict.mem_keys_of_get? (h.get?_sent hvalue (hfields _ (Dict.mem_of_get? hvalue)))
    · intro hname
      exact attributes.keys_withoutEmpty.subset (h.sent_eq ▸ hname)

/-- Then the item has a primary key. -/
theorem exists_primaryKey (h : Accepted cache type attributes sent)
    (hempty : (cache.schemaOf? type).isSome ∨ ∀ field ∈ attributes, field.2.isEmpty = false) :
    ∃ key, (cache.schemaOf type attributes).primaryKey attributes = .ok key := by
  have hnames := h.mem_names_iff hempty
  refine ItemSchema.exists_primaryKey_iff.mpr ⟨fun hnil => ?_, fun name hname => ?_⟩
  · obtain ⟨name, hname⟩ := List.exists_mem_of_ne_nil _ h.names_ne_nil
    exact absurd ((hnames name).mpr hname) (by simp [hnil])
  · exact h.set_attributes ((hnames name).mp hname)

/-- Otherwise the key of the item is incomplete. -/
theorem primaryKey_eq_error (h : Accepted cache type attributes sent)
    (htype : cache.schemaOf? type = none) {field : String × Attribute} (hfield : field ∈ attributes)
    (hempty : field.2.isEmpty = true) : ∃ field ∈ attributes, field.2.isEmpty = true ∧
      (cache.schemaOf type attributes).primaryKey attributes =
        .error (.incompleteKey field.1) := by
  have hschemas : ∀ item, cache.schemaOf type item = ⟨.ofDocument (Dict.keys item), []⟩ := by
    intro item
    rw [SchemaCache.schemaOf, htype, Option.getD_none]
  have hkeys : field.1 ∈ Dict.keys attributes := List.mem_map_of_mem hfield
  have hset : ∀ name ∈ Dict.keys sent, (attributes.setValue? name).isSome := fun name hname =>
    h.set_attributes (by rwa [hschemas, KeyLayout.names_ofDocument])
  rw [hschemas]
  cases hkey : (⟨.ofDocument (Dict.keys attributes), []⟩ : ItemSchema).primaryKey attributes with
  | ok key =>
    obtain ⟨-, hall⟩ := ItemSchema.exists_primaryKey_iff.mp ⟨key, hkey⟩
    simp only [KeyLayout.names_ofDocument] at hall
    have hunset := hall field.1 hkeys
    rw [AttributeMap.setValue?, Dict.get?_of_mem h.sorted hfield] at hunset
    simp [Option.filter, Attribute.isUnset_of_isEmpty hempty] at hunset
  | error error =>
    rcases ItemSchema.primaryKey_eq_error hkey with hnil | ⟨name, hname, hunset, rfl⟩
    · rw [KeyLayout.names_ofDocument] at hnil
      exact absurd hkeys (by simp [hnil])
    · rw [KeyLayout.names_ofDocument] at hname
      obtain ⟨value, hvalue⟩ := Dict.mem_keys_iff.mp hname
      refine ⟨(name, value), Dict.mem_of_get? hvalue, ?_, rfl⟩
      by_contra hleft
      have hsent := h.get?_sent hvalue (by simpa using hleft)
      have hleftSet := hset name (Dict.mem_keys_of_get? hsent)
      rw [hunset] at hleftSet
      cases hleftSet

section
variable (hkept : ∀ name ∈ (cache.schemaOf type attributes).primary.names, ∀ value,
  Dict.get? attributes name = some value → value.Kept)
include hkept

/-- If nothing is dropped of the attributes that the item is keyed by, none of them is empty. -/
theorem not_empty_of_kept (h : Accepted cache type attributes sent) :
    (cache.schemaOf? type).isSome ∨ ∀ field ∈ attributes, field.2.isEmpty = false := by
  cases htype : cache.schemaOf? type with
  | some schema => exact .inl rfl
  | none =>
    refine .inr fun field hfield => ?_
    rw [SchemaCache.schemaOf, htype, Option.getD_none, KeyLayout.names_ofDocument] at hkept
    have hvalue := Dict.get?_of_mem h.sorted hfield
    exact (hkept field.1 (Dict.mem_keys_of_get? hvalue) field.2 hvalue).1

/-- Then the key of the item holds the key attributes as they stand in what is left. -/
theorem selects_sent (h : Accepted cache type attributes sent) {key : ResolvedKey}
    (hkey : (cache.schemaOf type attributes).primaryKey attributes = .ok key) :
    (cache.schemaOf type sent).primary.Selects sent key.values := by
  intro name
  have hnames := h.mem_names_iff (h.not_empty_of_kept hkept) name
  rw [ItemSchema.selects_of_primaryKey hkey name]
  by_cases hname : name ∈ (cache.schemaOf type attributes).primary.names
  · obtain ⟨value, hset⟩ := Option.isSome_iff_exists.mp (h.set_attributes (hnames.mp hname))
    have hvalue := AttributeMap.get?_of_setValue? hset
    rw [if_pos hname, if_pos (hnames.mp hname), hvalue, h.sent_eq]
    exact ((AttributeMap.get?_withoutEmpty_eq_some_self_iff h.sorted hvalue).mpr
      (hkept name hname value hvalue)).symm
  · rw [if_neg hname, if_neg (mt hnames.mpr hname)]

end

end Accepted

/-- After a put, a delete and a get of the same item ask for the key attributes as they stand in
    what was stored exactly if nothing is dropped of the attributes that the item is keyed by. They
    ask for them as they stand in the item unless the type has no schema and an attribute is
    empty; then they ask for nothing. -/
theorem put_delete_get_key {sent : AttributeMap} (consistent : Bool) (hitem : item.Canonical)
    (hput : (client.put type table item).1.request? = some (.putItem ⟨table, sent⟩)) :
    ∃ attributes, AttributeMap.ofDocument item = .ok attributes ∧
      let after := (client.put type table item).2
      let layout := (client.cache.schemaOf type attributes).primary
      ((∃ key, after.AsksFor type table item consistent key ∧
          (client.cache.schemaOf type sent).primary.Selects sent key) ↔
        ∀ name ∈ layout.names, ∀ value, Dict.get? attributes name = some value → value.Kept) ∧
      if (client.cache.schemaOf? type).isSome ∨ ∀ field ∈ attributes, field.2.isEmpty = false then
        ∃ key, after.AsksFor type table item consistent key ∧ layout.Selects attributes key
      else
        (∃ field ∈ attributes, field.2.isEmpty = true ∧
          (after.delete type table item).1 =
            .done (.error (.schema (.incompleteKey field.1)))) ∧
          (after.get type table item consistent).1 = .done (.error (.schema .noValidKey)) := by
  obtain ⟨attributes, hattributes, hsent, hcache, hschemas, hkey⟩ := put_request?_eq_some hput
  obtain ⟨hne, hset⟩ := ItemSchema.exists_primaryKey_iff.mp hkey
  have haccepted : Accepted client.cache type attributes sent :=
    ⟨AttributeMap.sorted_ofDocument hitem hattributes, hsent, hne, hset⟩
  have hschema : ((client.put type table item).2.cache.schemaFor type attributes).1 =
      .ok (client.cache.schemaOf type attributes) := by
    rw [hcache, SchemaCache.schemaFor_stable, hschemas]
  have hasks : ∀ {values : AttributeMap},
      (client.put type table item).2.AsksFor type table item consistent values ↔
        ∃ key, (client.cache.schemaOf type attributes).primaryKey attributes = .ok key ∧
          key.values = values := asksFor_iff hattributes hschema
  refine ⟨attributes, hattributes, ⟨?_, fun hkept => ?_⟩, ?_⟩
  · rintro ⟨values, hvalues, hselects⟩ name hname value hvalue
    obtain ⟨key, hkey, rfl⟩ := hasks.mp hvalues
    have hfound := ItemSchema.selects_of_primaryKey hkey name
    rw [if_pos hname, hvalue, hselects name] at hfound
    split_ifs at hfound
    rw [hsent] at hfound
    exact (AttributeMap.get?_withoutEmpty_eq_some_self_iff haccepted.sorted hvalue).mp hfound
  · obtain ⟨key, hkey⟩ := haccepted.exists_primaryKey (haccepted.not_empty_of_kept hkept)
    exact ⟨key.values, hasks.mpr ⟨key, hkey, rfl⟩, haccepted.selects_sent hkept hkey⟩
  · split_ifs with hempty
    · obtain ⟨key, hkey⟩ := haccepted.exists_primaryKey hempty
      exact ⟨key.values, hasks.mpr ⟨key, hkey, rfl⟩, ItemSchema.selects_of_primaryKey hkey⟩
    · simp only [not_or, not_forall, Option.not_isSome_iff_eq_none] at hempty
      obtain ⟨htype, field, hfield, hblank⟩ := hempty
      obtain ⟨first, hfirst, hfirstBlank, hkey⟩ :=
        haccepted.primaryKey_eq_error htype hfield (by simpa using hblank)
      have hindexes : (client.cache.schemaOf type attributes).indexes = [] := by
        rw [SchemaCache.schemaOf, htype, Option.getD_none]
      refine ⟨⟨first, hfirst, hfirstBlank, ?_⟩,
        fst_get_of_noKey hattributes hschema hkey hindexes _⟩
      rw [fst_delete hattributes hschema, hkey]

/-- Items that are keyed by the attribute `id`. -/
def keyedById : ItemType := ⟨"item", some { primary := .ofHash "id" }, some⟩

/-- An item with an empty attribute that it is not keyed by. -/
def blankNote : Json :=
  .object [("id", .object [("k", .string "x")]), ("note", .string "")]

/-- The item is put without the empty attribute, and its key is asked for. -/
theorem put_delete_get_key_blankNote : blankNote.Canonical ∧
    (put {} keyedById "T" blankNote).1.request? =
      some (.putItem ⟨"T", [("id", .map [("k", .string "x")])]⟩) ∧
    ∃ key, (put {} keyedById "T" blankNote).2.AsksFor keyedById "T" blankNote true key ∧
      (KeyLayout.ofHash "id").Selects [("id", .map [("k", .string "x")])] key := by
  have hitem : blankNote.Canonical :=
    ⟨List.pairwise_pair.mpr (by decide),
      by simp [Json.Canonical, Json.CanonicalFields, Dict.Sorted]⟩
  have hput : (put {} keyedById "T" blankNote).1.request? =
      some (.putItem ⟨"T", [("id", .map [("k", .string "x")])]⟩) := rfl
  obtain ⟨attributes, hattributes, hasks, -⟩ := put_delete_get_key true hitem hput
  obtain rfl := Except.ok.inj hattributes
  refine ⟨hitem, hput, hasks.mpr fun name hname value hvalue => ?_⟩
  obtain rfl : name = "id" := List.mem_singleton.mp hname
  obtain rfl : Attribute.map [("k", .string "x")] = value := Option.some.inj hvalue
  simp [Attribute.Kept, Attribute.isEmpty, Attribute.Full, Attribute.FullFields]

/-- An item of a type without schema that has an empty attribute. -/
def blankField : Json := .object [("a", .string "x"), ("b", .string "")]

/-- An item whose key attribute has an empty part. -/
def blankInKey : Json := .object [("id", .object [("k", .string "x"), ("l", .string "")])]

/-- Both items are put. No key is asked for of the first one, and of the second one another key than
    the one that was stored. -/
theorem not_asksFor_sent :
    (put {} ⟨"json", none, some⟩ "T" blankField).1.request? =
        some (.putItem ⟨"T", [("a", .string "x")]⟩) ∧
      (∀ key, ¬ (put {} ⟨"json", none, some⟩ "T" blankField).2.AsksFor
        ⟨"json", none, some⟩ "T" blankField false key) ∧
      (put {} keyedById "T" blankInKey).1.request? =
        some (.putItem ⟨"T", [("id", .map [("k", .string "x")])]⟩) ∧
      ∀ key, (put {} keyedById "T" blankInKey).2.AsksFor keyedById "T" blankInKey false key →
        ¬ (KeyLayout.ofHash "id").Selects [("id", .map [("k", .string "x")])] key := by
  refine ⟨rfl, ?_, rfl, ?_⟩
  · rintro key ⟨hdelete, -⟩
    cases hdelete
  · rintro key ⟨hdelete, -⟩ hselects
    have hid := hselects "id"
    cases hdelete
    revert hid
    decide

end Client

end TableClient
