import Mathlib
import TableClient.Key.Cache
import TableClient.Proofs.Dict

/-!
# The schema cache is written once for each type

What a type declares may change from call to call. The cache keeps the first schema without fault
that a type declared, and gives it to every later call for the type. A schema with a fault, and a
type without schema, leave no trace in it.

Results:
* `get?_schemaFor`: what one call does to the cache.
* `get?_after`: what the cache keeps after any calls.
* `schemaFor_writes_once`: what a call behind any others is given and leaves, and what is given to
  the calls behind it.
-/

namespace TableClient

/-- The schema that a type declares, if it has no fault. -/
def ItemType.valid? (type : ItemType) : Option ItemSchema :=
  type.schema?.filter fun schema => schema.fault?.isNone

theorem ItemType.fault?_of_valid? {type : ItemType} {schema : ItemSchema}
    (h : type.valid? = some schema) : schema.fault? = none := by
  simpa using (Option.filter_eq_some_iff.mp h).2

namespace SchemaCache

/-! ## One call -/

/-- A call keeps what the cache has and adds what the type declares, if that has no fault and the
    cache has nothing for the type. -/
theorem get?_schemaFor (cache : SchemaCache) (type : ItemType) (item : AttributeMap)
    (name : String) : Dict.get? (cache.schemaFor type item).2.schemas name =
      (Dict.get? cache.schemas name).or (if type.name = name then type.valid? else none) := by
  unfold schemaFor ItemType.valid?
  cases hcached : Dict.get? cache.schemas type.name with
  | some kept =>
    split_ifs with hname
    · subst hname
      rw [hcached, Option.some_or]
    · rw [Option.or_none]
  | none =>
    cases type.schema? with
    | none => simp
    | some declared =>
      cases hfault : declared.fault? with
      | some fault => simp [Option.filter, hfault]
      | none =>
        simp only [Option.filter, hfault, Option.isNone_none, if_true, Dict.get?_insert]
        split_ifs with hname htype htype
        · rw [hname, hcached, Option.none_or]
        · exact absurd hname.symm htype
        · exact absurd htype.symm hname
        · rw [Option.or_none]

/-- A call for a type that declares nothing valid leaves the cache as it is. -/
theorem snd_schemaFor_of_valid?_eq_none (cache : SchemaCache) {type : ItemType}
    (h : type.valid? = none) (item : AttributeMap) : (cache.schemaFor type item).2 = cache := by
  unfold schemaFor
  cases Dict.get? cache.schemas type.name with
  | some kept => rfl
  | none =>
    cases hdeclared : type.schema? with
    | none => rfl
    | some declared =>
      cases hfault : declared.fault? with
      | some fault => simp only [hfault]
      | none => simp [ItemType.valid?, hdeclared, Option.filter, hfault] at h

theorem sorted_schemaFor {cache : SchemaCache} (h : Dict.Sorted cache.schemas) (type : ItemType)
    (item : AttributeMap) : Dict.Sorted (cache.schemaFor type item).2.schemas := by
  unfold schemaFor
  split
  · exact h
  · split
    · exact h
    · split
      · exact h
      · exact Dict.sorted_insert h _ _

/-- A call for a type that has a schema in the cache, or declares a valid one, is given it. -/
theorem fst_schemaFor_of_eq_some {cache : SchemaCache} {type : ItemType} {schema : ItemSchema}
    (h : (Dict.get? cache.schemas type.name).or type.valid? = some schema) (item : AttributeMap) :
    (cache.schemaFor type item).1 = .ok schema := by
  cases hcached : Dict.get? cache.schemas type.name with
  | some kept =>
    rw [hcached, Option.some_or] at h
    rw [schemaFor_cached cache type item hcached, Option.some.inj h]
  | none =>
    rw [hcached, Option.none_or] at h
    have hdeclared := (Option.filter_eq_some_iff.mp h).1
    simp only [schemaFor, hcached, hdeclared, ItemType.fault?_of_valid? h]

/-- What a call is given if its type declares a schema is in the cache after the call. -/
theorem get?_schemaFor_of_ok {cache : SchemaCache} {type : ItemType} {item : AttributeMap}
    {schema : ItemSchema} (h : (cache.schemaFor type item).1 = .ok schema)
    (hdeclared : type.schema?.isSome ∨ (Dict.get? cache.schemas type.name).isSome) :
    Dict.get? (cache.schemaFor type item).2.schemas type.name = some schema := by
  rw [get?_schemaFor, if_pos rfl]
  cases hkept : (Dict.get? cache.schemas type.name).or type.valid? with
  | some kept =>
    rw [fst_schemaFor_of_eq_some hkept] at h
    rw [Except.ok.inj h]
  | none =>
    -- nothing is in the cache, and what is declared has a fault
    obtain ⟨hcached, hvalid⟩ := Option.or_eq_none_iff.mp hkept
    obtain ⟨declared, hsome⟩ : ∃ declared, type.schema? = some declared := by
      simpa [hcached, Option.isSome_iff_exists] using hdeclared
    cases hfault : declared.fault? with
    | none => simp [ItemType.valid?, hsome, Option.filter, hfault] at hvalid
    | some fault => simp [schemaFor, hcached, hsome, hfault] at h

/-! ## Any calls -/

/-- A call for the schema of an item, with what its type declares at the time. -/
structure Call where
  type : ItemType
  item : AttributeMap

/-- The cache that calls leave, one after another, of one that was empty. -/
def after (calls : List Call) : SchemaCache :=
  calls.foldl (fun cache call => (cache.schemaFor call.type call.item).2) {}

/-- What a call behind others is given. -/
def gives (before : List Call) (call : Call) : Except SchemaError ItemSchema :=
  ((after before).schemaFor call.type call.item).1

/-- The first schema without fault that a type declared at one of the calls. -/
def firstDeclared? (calls : List Call) (name : String) : Option ItemSchema :=
  calls.findSome? fun call => if call.type.name = name then call.type.valid? else none

/-- The types that declared a schema without fault at one of the calls. -/
def cachedTypes (calls : List Call) : Finset String :=
  (calls.map fun call => call.type.name).toFinset.filter fun name =>
    (firstDeclared? calls name).isSome

theorem after_snoc (calls : List Call) (call : Call) :
    after (calls ++ [call]) = ((after calls).schemaFor call.type call.item).2 := by
  unfold after
  rw [List.foldl_append]
  rfl

theorem firstDeclared?_snoc (calls : List Call) (call : Call) (name : String) :
    firstDeclared? (calls ++ [call]) name =
      (firstDeclared? calls name).or (if call.type.name = name then call.type.valid? else none) := by
  unfold firstDeclared?
  rw [List.findSome?_append]
  simp

/-- The cache keeps the first schema without fault that each type declared. -/
theorem get?_after (calls : List Call) (name : String) :
    Dict.get? (after calls).schemas name = firstDeclared? calls name := by
  induction calls using List.reverseRecOn with
  | nil => rfl
  | append_singleton calls call ih =>
    rw [after_snoc, get?_schemaFor, ih, firstDeclared?_snoc]

theorem sorted_after (calls : List Call) : Dict.Sorted (after calls).schemas := by
  induction calls using List.reverseRecOn with
  | nil => exact Dict.sorted_nil
  | append_singleton calls call ih =>
    rw [after_snoc]
    exact sorted_schemaFor ih _ _

theorem firstDeclared?_append_of_eq_some {calls : List Call} {name : String} {schema : ItemSchema}
    (h : firstDeclared? calls name = some schema) (later : List Call) :
    firstDeclared? (calls ++ later) name = some schema := by
  unfold firstDeclared? at h ⊢
  rw [List.findSome?_append, h, Option.some_or]

theorem exists_of_firstDeclared? {calls : List Call} {name : String} {schema : ItemSchema}
    (h : firstDeclared? calls name = some schema) :
    ∃ call ∈ calls, call.type.name = name ∧ call.type.valid? = some schema := by
  obtain ⟨call, hcall, hvalid⟩ := List.exists_of_findSome?_eq_some h
  split_ifs at hvalid with hname
  exact ⟨call, hcall, hname, hvalid⟩

/-- A call for a type that declared a schema without fault by then is given the first one. -/
theorem gives_of_firstDeclared? {before : List Call} {call : Call} {schema : ItemSchema}
    (h : firstDeclared? (before ++ [call]) call.type.name = some schema) :
    gives before call = .ok schema := by
  refine fst_schemaFor_of_eq_some ?_ _
  rw [get?_after, ← h, firstDeclared?_snoc, if_pos rfl]

theorem keys_after (calls : List Call) :
    (Dict.keys (after calls).schemas).toFinset = cachedTypes calls := by
  ext name
  simp only [cachedTypes, List.mem_toFinset, Finset.mem_filter, Dict.mem_keys_iff, get?_after,
    Option.isSome_iff_exists]
  refine ⟨fun ⟨schema, hschema⟩ => ⟨?_, schema, hschema⟩, And.right⟩
  obtain ⟨call, hcall, hname, -⟩ := exists_of_firstDeclared? hschema
  exact List.mem_map.mpr ⟨call, hcall, hname⟩

/-- The cache is written once for each type. What a call is given that is declared, by it or before,
    is given to every later call for the type; it is the first schema without fault that the type
    declared. A call whose type declares no schema, or one with a fault, leaves the cache as it is.
    The cache holds the first schema without fault of each type that declared one, and nothing else.
    Where there is none, an item is keyed by the names of all its attributes, in order, and has no
    indexes. -/
theorem schemaFor_writes_once (before : List Call) (call : Call) :
    (∀ schema, gives before call = .ok schema →
      (call.type.schema?.isSome ∨ (firstDeclared? before call.type.name).isSome) →
      ∀ later next, next.type.name = call.type.name →
        gives (before ++ call :: later) next = .ok schema) ∧
    (∀ schema, firstDeclared? (before ++ [call]) call.type.name = some schema →
      gives before call = .ok schema) ∧
    ((∀ schema, call.type.schema? = some schema → schema.fault? ≠ none) →
      after (before ++ [call]) = after before) ∧
    (∀ name, Dict.get? (after before).schemas name = firstDeclared? before name) ∧
    (after before).size = (cachedTypes before).card ∧
    (∀ name schema, (name, schema) ∈ (after before).schemas → schema.fault? = none) ∧
    (call.type.schema? = none → firstDeclared? before call.type.name = none →
      Dict.Sorted call.item →
      ∃ names, names.Pairwise (· < ·) ∧
        (∀ name, name ∈ names ↔ ∃ value, Dict.get? call.item name = some value) ∧
        gives before call = .ok ⟨.ofDocument names, []⟩) := by
  refine ⟨?_, fun schema => gives_of_firstDeclared?, ?_, get?_after before, ?_, ?_, ?_⟩
  · intro schema hgives hdeclared later next hname
    have hkept := get?_schemaFor_of_ok hgives (by rwa [get?_after])
    rw [← after_snoc, get?_after] at hkept
    apply gives_of_firstDeclared?
    rw [hname, List.append_assoc, List.cons_append, ← List.singleton_append, ← List.append_assoc]
    exact firstDeclared?_append_of_eq_some hkept _
  · intro hfault
    rw [after_snoc]
    refine snd_schemaFor_of_valid?_eq_none _ ?_ _
    refine Option.eq_none_iff_forall_ne_some.mpr fun schema hvalid => ?_
    exact hfault schema (Option.filter_eq_some_iff.mp hvalid).1 (ItemType.fault?_of_valid? hvalid)
  · rw [← keys_after, List.toFinset_card_of_nodup (sorted_after before).nodup_keys]
    exact (List.length_map _).symm
  · intro name schema hmem
    have hkept := (get?_after before name).symm.trans (Dict.get?_of_mem (sorted_after before) hmem)
    obtain ⟨_, -, -, hvalid⟩ := exists_of_firstDeclared? hkept
    exact ItemType.fault?_of_valid? hvalid
  · intro hnone hfirst hitem
    refine ⟨Dict.keys call.item, List.pairwise_map.mpr hitem, fun name => Dict.mem_keys_iff, ?_⟩
    unfold gives schemaFor
    rw [get?_after, hfirst, hnone]

/-- A call for films, which declare this schema at the time, or for documents, which declare none. -/
def callFor (name : String) (schema? : Option ItemSchema) : Call :=
  ⟨⟨name, schema?, some⟩, [("id", .string "x"), ("year", .number "1")]⟩

/-- Films first declare a key without name, then a key that is kept, then another one. -/
theorem schemaFor_writes_once_films :
    let broken := callFor "film" (some ⟨.ofHash "", []⟩)
    let byId := callFor "film" (some ⟨.ofHash "id", []⟩)
    let byYear := callFor "film" (some ⟨.ofHash "year", []⟩)
    let document := callFor "document" none
    after [broken] = after [] ∧ gives [broken] byId = .ok ⟨.ofHash "id", []⟩ ∧
      gives [broken, byId] byYear = .ok ⟨.ofHash "id", []⟩ ∧
      gives [broken, byId] (callFor "film" none) = .ok ⟨.ofHash "id", []⟩ ∧
      (after [broken, byId, document]).size = 1 ∧
      Dict.Sorted document.item ∧
      ∃ names, names.Pairwise (· < ·) ∧
        (∀ name, name ∈ names ↔ ∃ value, Dict.get? document.item name = some value) ∧
        gives [broken, byId] document = .ok ⟨.ofDocument names, []⟩ := by
  intro broken byId byYear document
  have hbroken := schemaFor_writes_once [] broken
  have hbyId := schemaFor_writes_once [broken] byId
  have hdocument := schemaFor_writes_once [broken, byId] document
  have hgiven := hbyId.2.1 ⟨.ofHash "id", []⟩ (by decide)
  have hlater := hbyId.1 _ hgiven (.inl rfl) []
  have hsorted : Dict.Sorted document.item := by
    simp only [document, callFor, Dict.Sorted]
    decide
  refine ⟨hbroken.2.2.1 ?_, hgiven, hlater byYear rfl, hlater _ rfl, ?_, hsorted,
    hdocument.2.2.2.2.2.2 rfl (by decide) hsorted⟩
  · intro schema hschema
    obtain rfl := Option.some.inj hschema
    decide
  · rw [(schemaFor_writes_once [broken, byId, document] document).2.2.2.2.1]
    decide

end SchemaCache

end TableClient
