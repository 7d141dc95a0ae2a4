import Mathlib
import TableClient.Key.Cache
import TableClient.Proofs.Dict
import TableClient.Proofs.Key.Identity

/-!
# Resolved keys hold what the item holds

A key that is resolved agrees with its item on the attributes of the layout and holds nothing else.
The schema that an item is resolved by does not depend on the items of its type before it.

Results:
* `get?_valuesOf`: the attributes of a resolved key are those of the item.
* `values_valuesOf`: the key and the item have the same values under the layout.
* `valuesOf_ofDocument`: a document that is keyed by all its attributes is its own key.
* `schemaFor_eq_schemaOf`: which schemas the items of a type are given.
* `schemaFor_stable`: a call for a type does not change what later calls for the type give.
* `schemaFor_declared`: a type that declares a schema is keyed by it.
-/

namespace TableClient

/-! ## Keys of items -/

theorem AttributeMap.get?_of_setValue? {item : AttributeMap} {name : String} {value : Attribute}
    (h : item.setValue? name = some value) : Dict.get? item name = some value :=
  (Option.filter_eq_some_iff.mp h).1

theorem get?_collectValues {item values key : AttributeMap} {names : List String}
    (h : collectValues item values names = .ok key) (name : String) :
    Dict.get? key name = if name ∈ names then Dict.get? item name else Dict.get? values name := by
  induction names generalizing values with
  | nil =>
    cases h
    simp
  | cons first names ih =>
    rw [collectValues] at h
    split at h
    · rename_i value hvalue
      rw [ih h, Dict.get?_insert]
      by_cases hmem : name ∈ names
      · simp [hmem]
      · by_cases hname : name = first
        · subst hname
          simp [hmem, AttributeMap.get?_of_setValue? hvalue]
        · simp [hmem, hname]
    · cases h

theorem sorted_collectValues {item values key : AttributeMap} {names : List String}
    (hvalues : Dict.Sorted values) (h : collectValues item values names = .ok key) :
    Dict.Sorted key := by
  induction names generalizing values with
  | nil =>
    cases h
    exact hvalues
  | cons first names ih =>
    rw [collectValues] at h
    split at h
    · exact ih (Dict.sorted_insert hvalues _ _) h
    · cases h

/-- The name that a key is missing is one whose attribute is not set. -/
theorem setValue?_of_collectValues_eq_error {item values : AttributeMap} {names : List String}
    {name : String} (h : collectValues item values names = .error name) :
    name ∈ names ∧ item.setValue? name = none := by
  induction names generalizing values with
  | nil => cases h
  | cons first names ih =>
    rw [collectValues] at h
    split at h
    · obtain ⟨hmem, hunset⟩ := ih h
      exact ⟨List.mem_cons_of_mem first hmem, hunset⟩
    · rename_i hunset
      cases h
      exact ⟨List.mem_cons_self, hunset⟩

namespace KeyLayout

variable {layout : KeyLayout} {item key : AttributeMap}

/-- The attributes of a resolved key are those of the item that the layout names. -/
theorem get?_valuesOf (h : layout.valuesOf item = .ok key) (name : String) :
    Dict.get? key name = if name ∈ layout.names then Dict.get? item name else none :=
  get?_collectValues h name

theorem sorted_valuesOf (h : layout.valuesOf item = .ok key) : Dict.Sorted key :=
  sorted_collectValues Dict.sorted_nil h

/-- A resolved key and its item have the same values under the layout. -/
theorem values_valuesOf (h : layout.valuesOf item = .ok key) :
    layout.values key = layout.values item := by
  rw [values_eq_iff]
  intro name hname
  rw [get?_valuesOf h, if_pos hname]

end KeyLayout

/-- A document that is keyed by all its attributes is its own key. -/
theorem KeyLayout.valuesOf_ofDocument {item key : AttributeMap} (hitem : Dict.Sorted item)
    (h : (KeyLayout.ofDocument (Dict.keys item)).valuesOf item = .ok key) : key = item := by
  refine Dict.Sorted.ext (KeyLayout.sorted_valuesOf h) hitem fun name => ?_
  rw [KeyLayout.get?_valuesOf h, KeyLayout.names_ofDocument]
  split_ifs with hname
  · rfl
  · refine (Option.eq_none_iff_forall_ne_some.mpr fun value hvalue => hname ?_).symm
    exact Dict.mem_keys_of_get? hvalue

/-- The primary key of an item has its values under the primary layout. -/
theorem ItemSchema.valuesOf_of_primaryKey {schema : ItemSchema} {item : AttributeMap}
    {key : ResolvedKey} (h : schema.primaryKey item = .ok key) :
    schema.primary.valuesOf item = .ok key.values := by
  unfold ItemSchema.primaryKey at h
  split_ifs at h
  split at h
  · rename_i values hvalues
    cases h
    exact hvalues
  · cases h

/-! ## Attributes of documents -/

theorem AttributeMap.keys_withoutEmpty (item : AttributeMap) :
    (Dict.keys item.withoutEmpty).Sublist (Dict.keys item) := by
  induction item with
  | nil => exact List.Sublist.refl _
  | cons entry rest ih =>
    obtain ⟨name, value⟩ := entry
    unfold withoutEmpty at ih ⊢
    rw [Attribute.pruneFields]
    split_ifs
    · exact ih.cons name
    · exact ih.cons_cons name

theorem AttributeMap.sorted_withoutEmpty {item : AttributeMap} (h : Dict.Sorted item) :
    Dict.Sorted item.withoutEmpty :=
  List.pairwise_map.mp (List.Pairwise.sublist item.keys_withoutEmpty (List.pairwise_map.mpr h))

/-- The attributes of a canonical document are in order. -/
theorem AttributeMap.sorted_ofDocument {document : Json} (hdocument : document.Canonical)
    {item : AttributeMap} (h : ofDocument document = .ok item) : Dict.Sorted item := by
  cases document with
  | object fields =>
    cases h
    obtain ⟨hsorted, -⟩ := hdocument
    have hnames : (Dict.keys (Attribute.ofFields fields)).Pairwise (· < ·) := by
      rw [Attribute.keys_ofFields]
      exact List.pairwise_map.mpr hsorted
    exact List.pairwise_map.mp hnames
  | _ => cases h

/-! ## Schemas of types -/

namespace SchemaCache

/-- A call for a type does not change what later calls for the type give. -/
theorem schemaFor_stable (cache : SchemaCache) (type : ItemType) (first item : AttributeMap) :
    ((cache.schemaFor type first).2.schemaFor type item).1 = (cache.schemaFor type item).1 := by
  cases hcached : Dict.get? cache.schemas type.name with
  | some schema => rw [schemaFor_cached cache type first hcached]
  | none =>
    cases hdeclared : type.schema? with
    | none => simp only [schemaFor, hcached, hdeclared]
    | some schema =>
      cases hfault : schema.fault? with
      | some fault => simp only [schemaFor, hcached, hdeclared, hfault]
      | none => simp only [schemaFor, hcached, hdeclared, hfault, Dict.get?_insert, ite_true]

/-- The schemas of a type are the same for all its items, or each item is keyed by all its
    attributes. -/
theorem schemaFor_cases {cache : SchemaCache} {type : ItemType} {item : AttributeMap}
    {schema : ItemSchema} (h : (cache.schemaFor type item).1 = .ok schema) :
    (∀ other, (cache.schemaFor type other).1 = .ok schema) ∨
      ∀ other, (cache.schemaFor type other).1 = .ok ⟨.ofDocument (Dict.keys other), []⟩ := by
  cases hcached : Dict.get? cache.schemas type.name with
  | some kept =>
    left
    intro other
    rw [schemaFor_cached cache type item hcached] at h
    rw [schemaFor_cached cache type other hcached, ← h]
  | none =>
    cases hdeclared : type.schema? with
    | none =>
      right
      intro other
      simp only [schemaFor, hcached, hdeclared]
    | some declared =>
      left
      intro other
      cases hfault : declared.fault? with
      | some fault =>
        simp only [schemaFor, hcached, hdeclared, hfault] at h
        cases h
      | none =>
        simp only [schemaFor, hcached, hdeclared, hfault] at h ⊢
        exact h

/-- The schema that the items of a type have: the one that is kept, or else the one that the type
    declares. -/
def schemaOf? (cache : SchemaCache) (type : ItemType) : Option ItemSchema :=
  (Dict.get? cache.schemas type.name).or type.schema?

/-- The schema of an item of a type; where the type has none, the item is keyed by all it has. -/
def schemaOf (cache : SchemaCache) (type : ItemType) (item : AttributeMap) : ItemSchema :=
  (cache.schemaOf? type).getD ⟨.ofDocument (Dict.keys item), []⟩

/-- Once an item of a type is given a schema, every item of the type is given its own. -/
theorem schemaFor_eq_schemaOf {cache : SchemaCache} {type : ItemType} {item : AttributeMap}
    {schema : ItemSchema} (h : (cache.schemaFor type item).1 = .ok schema) (other : AttributeMap) :
    (cache.schemaFor type other).1 = .ok (cache.schemaOf type other) := by
  cases hcached : Dict.get? cache.schemas type.name with
  | some kept => simp only [schemaFor, schemaOf, schemaOf?, hcached, Option.some_or,
      Option.getD_some]
  | none =>
    cases hdeclared : type.schema? with
    | none => simp only [schemaFor, schemaOf, schemaOf?, hcached, hdeclared, Option.or_none,
        Option.getD_none]
    | some declared =>
      cases hfault : declared.fault? with
      | some fault =>
        simp only [schemaFor, hcached, hdeclared, hfault] at h
        cases h
      | none => simp only [schemaFor, schemaOf, schemaOf?, hcached, hdeclared, hfault,
          Option.none_or, Option.getD_some]

/-- What a cache keeps for a type is what the type declares. -/
def Agrees (cache : SchemaCache) (type : ItemType) : Prop :=
  ∀ schema, Dict.get? cache.schemas type.name = some schema → type.schema? = some schema

/-- A type that declares a schema is keyed by it. -/
theorem Agrees.schemaFor_declared {cache : SchemaCache} {type : ItemType} {schema : ItemSchema}
    (h : cache.Agrees type) (hdeclared : type.schema? = some schema)
    (hvalid : schema.fault? = none) (item : AttributeMap) :
    (cache.schemaFor type item).1 = .ok schema := by
  cases hcached : Dict.get? cache.schemas type.name with
  | none => simp only [schemaFor, hcached, hdeclared, hvalid]
  | some kept =>
    rw [schemaFor_cached cache type item hcached]
    exact congrArg Except.ok (Option.some.inj ((h kept hcached).symm.trans hdeclared))

/-- A call for a type leaves a cache that agrees with every type that is not another of its name. -/
theorem Agrees.schemaFor {cache : SchemaCache} {type other : ItemType} (h : cache.Agrees type)
    (hsame : other.name = type.name → other.schema? = type.schema?) (item : AttributeMap) :
    (cache.schemaFor other item).2.Agrees type := by
  cases hcached : Dict.get? cache.schemas other.name with
  | some kept =>
    rw [schemaFor_cached cache other item hcached]
    exact h
  | none =>
    cases hdeclared : other.schema? with
    | none => simpa only [SchemaCache.schemaFor, hcached, hdeclared] using h
    | some declared =>
      cases hfault : declared.fault? with
      | some fault => simpa only [SchemaCache.schemaFor, hcached, hdeclared, hfault] using h
      | none =>
        simp only [SchemaCache.schemaFor, hcached, hdeclared, hfault]
        intro schema hschema
        rw [Dict.get?_insert] at hschema
        split_ifs at hschema with hname
        · rw [← hsame hname.symm, hdeclared, hschema]
        · exact h schema hschema

end SchemaCache

end TableClient
