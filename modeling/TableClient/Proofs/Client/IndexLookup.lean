import Mathlib
import TableClient.Proofs.Client.Keys
import TableClient.Proofs.Condition.Placeholders

/-!
# Looking an item up through an index

An item without primary key is looked up through the first index whose key it has. The index is then
found once more, by its name, and the key condition is made from the layout that is found: it names
the attributes of that layout that are in the key. So it selects by the key of the index if no index
before it has the same name, or if the first one that has it lists the same attributes.

Results:
* `ItemSchema.secondaryKey?_eq_some`: the key of an item in the first index that it has a key in.
* `Client.Matches.names_eq`: a query matches the attributes that its key condition mentions.
* `Client.looksUp_indexLookup`: what the query for a key in an index looks up.
* `Client.get_looks_up`: when an item is looked up by its key in the index.
-/

namespace TableClient

open Condition (placeholder placeholdersIn isWordChar isPlaceholder)

/-! ## The index -/

/-- Whether an item sets all the attributes of a layout. -/
def KeyLayout.IsComplete (layout : KeyLayout) (item : AttributeMap) : Prop :=
  ∀ name ∈ layout.names, (item.setValue? name).isSome

instance (layout : KeyLayout) (item : AttributeMap) : Decidable (layout.IsComplete item) :=
  inferInstanceAs (Decidable (∀ name ∈ layout.names, (item.setValue? name).isSome))

namespace ItemSchema

variable {schema : ItemSchema} {item : AttributeMap} {index : IndexSchema}
  {before behind : List IndexSchema}

/-- The key of an item in the first index that it has a key in. -/
theorem secondaryKey?_eq_some (hindexes : schema.indexes = before ++ index :: behind)
    (hbefore : ∀ other ∈ before, ¬ other.key.IsComplete item) (hindex : index.key.IsComplete item) :
    ∃ values, index.key.valuesOf item = .ok values ∧
      schema.secondaryKey? item = some ⟨values, some (index.name, index.kind)⟩ := by
  cases hvalues : index.key.valuesOf item with
  | error name =>
    have hset := (valuesOf_isOk_iff index.key item).mpr hindex
    rw [hvalues] at hset
    contradiction
  | ok values =>
    refine ⟨values, rfl, List.findSome?_eq_some_iff.mpr ⟨before, index, behind, hindexes, ?_, ?_⟩⟩
    · rw [hvalues]
      rfl
    · intro other hother
      have hunset := mt (valuesOf_isOk_iff other.key item).mp (hbefore other hother)
      rw [Option.not_isSome_iff_eq_none.mp hunset, Option.map_none]

/-- An item without primary key has the key that it has in an index. -/
theorem anyKey_eq_ok (hprimary : ¬ schema.primary.IsComplete item) {key : ResolvedKey}
    (hkey : schema.secondaryKey? item = some key) : schema.anyKey item = .ok key := by
  rw [anyKey, hkey]
  cases hfound : schema.primaryKey item with
  | ok found => exact absurd (exists_primaryKey_iff.mp ⟨found, hfound⟩).2 hprimary
  | error error => rfl

/-- An index is the first one of its name if no other one before it has the name. -/
theorem index?_eq_some (hindexes : schema.indexes = before ++ index :: behind)
    (hnames : ∀ other ∈ before, other.name ≠ index.name) :
    schema.index? index.name = some index := by
  rw [index?, hindexes]
  refine List.find?_eq_some_iff_append.mpr ⟨by simp, before, behind, rfl, fun other hother => ?_⟩
  simpa using hnames other hother

end ItemSchema

namespace Client

/-! ## Key conditions -/

/-- An equality in a key condition: an attribute name and a value, and the placeholders that stand
    for them. -/
structure Equality where
  nameMark : String
  name : String
  valueMark : String
  value : Attribute

/-- The text of an equality. -/
def Equality.text (equality : Equality) : String :=
  equality.nameMark ++ " = " ++ equality.valueMark

/-- A query whose key condition is made up of equalities. Each has placeholders of its own, which
    are bound to the name of an attribute and to the value that an item has for it, and nothing else
    is bound. -/
structure Matches (input : Protocol.Query) (item : AttributeMap) (equalities : List Equality) :
    Prop where
  value : ∀ equality ∈ equalities, Dict.get? item equality.name = some equality.value
  nameMark : ∀ equality ∈ equalities, ∃ word, equality.nameMark.toList = '#' :: word ∧
    ∀ c ∈ word, isWordChar c = true
  valueMark : ∀ equality ∈ equalities, isPlaceholder equality.valueMark.toList = true
  nodup_nameMarks : (equalities.map Equality.nameMark).Nodup
  nodup_valueMarks : (equalities.map Equality.valueMark).Nodup
  keyCondition : input.keyCondition = " AND ".intercalate (equalities.map Equality.text)
  names : input.names = Dict.ofList (equalities.map fun equality =>
    (equality.nameMark, equality.name))
  values : input.values = Dict.ofList (equalities.map fun equality =>
    (equality.valueMark, equality.value))

/-- Whether a query looks an item up by attributes: by one equality for each of them, in order. -/
def LooksUp (input : Protocol.Query) (item : AttributeMap) (names : List String) : Prop :=
  ∃ equalities, Matches input item equalities ∧ equalities.map Equality.name = names

section
variable {input : Protocol.Query} {item values : AttributeMap} {equalities : List Equality}
  {layout : KeyLayout}

/-- A query matches the attributes that its key condition mentions. -/
theorem Matches.names_eq (h : Matches input item equalities) :
    (placeholdersIn '#' input.keyCondition.toList).filterMap (Dict.get? input.names) =
      equalities.map Equality.name := by
  have hone : ∀ equality ∈ equalities,
      placeholdersIn '#' equality.text.toList = [equality.nameMark] := by
    intro equality hmem
    obtain ⟨word, hmark, hword⟩ := h.nameMark equality hmem
    rw [Equality.text, String.toList_append, String.toList_append, List.append_assoc,
      Condition.placeholdersIn_separated rfl _ rfl, Condition.placeholdersIn_mark rfl hmark hword,
      (Condition.placeholdersIn_of_isPlaceholder (h.valueMark equality hmem)).2, List.append_nil]
  have hmarks : placeholdersIn '#' input.keyCondition.toList =
      equalities.map Equality.nameMark := by
    rw [h.keyCondition, String.toList_intercalate, ← Text.join_eq_intercalate,
      Condition.placeholdersIn_join rfl rfl, List.flatMap_map, List.flatMap_map,
      List.flatMap_congr hone, List.map_eq_flatMap]
  have hbound : ∀ equality ∈ equalities,
      Dict.get? input.names equality.nameMark = some equality.name := by
    intro equality hmem
    rw [h.names]
    refine Condition.get?_insertAll_of_mem (.inl (List.mem_map_of_mem hmem)) fun other hother => ?_
    obtain ⟨second, hsecond, heq⟩ := List.mem_map.mp hother
    obtain ⟨hmark, rfl⟩ := Prod.mk.inj heq
    exact congrArg Equality.name (List.inj_on_of_nodup_map h.nodup_nameMarks hsecond hmem hmark)
  rw [hmarks, List.filterMap_map]
  exact (List.filterMap_congr hbound).trans (congrFun List.filterMap_eq_map equalities)

/-- So it looks an item up by one list of attributes only. -/
theorem LooksUp.unique {names others : List String} (h : LooksUp input item names)
    (hother : LooksUp input item others) : names = others := by
  obtain ⟨equalities, hmatches, rfl⟩ := h
  obtain ⟨second, hsecond, rfl⟩ := hother
  rw [← hmatches.names_eq, hsecond.names_eq]

/-- The equalities of the query for a key in an index. -/
def keyEqualities (layout : KeyLayout) (values : AttributeMap) : List Equality :=
  (indexParts layout values).zipIdx.map fun ((name, position, value), place) =>
    ⟨placeholder place, name, ":v" ++ toString position, value⟩

theorem mem_indexParts {name : String} {position : ℕ} {value : Attribute}
    (h : (name, position, value) ∈ indexParts layout values) :
    Dict.get? values name = some value := by
  obtain ⟨⟨other, place⟩, -, hpart⟩ := List.mem_filterMap.mp h
  obtain ⟨found, hfound, heq⟩ := Option.map_eq_some_iff.mp hpart
  obtain ⟨rfl, hrest⟩ := Prod.mk.inj heq
  obtain ⟨-, rfl⟩ := Prod.mk.inj hrest
  exact hfound

/-- The parts are the attributes of the layout that have a value, in order. -/
theorem names_indexParts (layout : KeyLayout) (values : AttributeMap) :
    (indexParts layout values).map Prod.fst =
      layout.names.filter fun name => (Dict.get? values name).isSome := by
  have hname : ∀ part : String × ℕ,
      ((Dict.get? values part.1).map fun value => (part.1, part.2, value)).map Prod.fst =
        Option.guard (fun name => (Dict.get? values name).isSome) part.1 := by
    rintro ⟨name, position⟩
    cases hvalue : Dict.get? values name <;> simp [Option.guard, hvalue]
  have hparts : (indexParts layout values).map Prod.fst =
      ((layout.names.zipIdx 1).map Prod.fst).filterMap
        (Option.guard fun name => (Dict.get? values name).isSome) := by
    rw [indexParts, List.map_filterMap, List.filterMap_map]
    exact List.filterMap_congr fun part _ => hname part
  rw [hparts, List.zipIdx_map_fst, List.filterMap_eq_filter]

/-- No two parts stand at one position. -/
theorem nodup_indexParts (layout : KeyLayout) (values : AttributeMap) :
    ((indexParts layout values).map fun part => part.2.1).Nodup := by
  have hpositions : (layout.names.zipIdx 1).Pairwise fun part other => part.2 ≠ other.2 := by
    rw [← List.pairwise_map, List.zipIdx_map_snd]
    exact List.nodup_range'
  rw [List.Nodup, List.pairwise_map, indexParts, List.pairwise_filterMap]
  refine hpositions.imp ?_
  rintro ⟨name, position⟩ ⟨other, place⟩ hne part hpart second hsecond
  obtain ⟨value, -, rfl⟩ := Option.map_eq_some_iff.mp hpart
  obtain ⟨found, -, rfl⟩ := Option.map_eq_some_iff.mp hsecond
  exact hne

theorem names_keyEqualities (layout : KeyLayout) (values : AttributeMap) :
    (keyEqualities layout values).map Equality.name =
      layout.names.filter fun name => (Dict.get? values name).isSome := by
  have hnames : (keyEqualities layout values).map Equality.name =
      ((indexParts layout values).zipIdx.map Prod.fst).map Prod.fst := by
    rw [keyEqualities, List.map_map, List.map_map]
    rfl
  rw [hnames, List.zipIdx_map_fst, names_indexParts]

theorem isPlaceholder_position (position : ℕ) :
    isPlaceholder (":v" ++ toString position).toList = true := by
  have htext : (":v" ++ toString position).toList = ':' :: 'v' :: Nat.toDigits 10 position := by
    simp [Nat.repr_eq_ofList_toDigits]
  rw [htext]
  exact List.all_eq_true.mpr
    (List.forall_mem_cons.mpr ⟨by decide, fun c hc => Condition.isWordChar_of_mem_toDigits hc⟩)

theorem position_injective {position other : ℕ}
    (h : ":v" ++ toString position = ":v" ++ toString other) : position = other := by
  simp only [Nat.toString_eq_repr] at h
  exact Nat.repr_inj.mp ((String.append_right_inj _).mp h)

/-- The query for a key in an index is made up of these equalities. -/
theorem matches_indexLookup (table name : String) (layout : KeyLayout) (consistent : Bool)
    (h : ∀ name value, Dict.get? values name = some value → Dict.get? item name = some value) :
    Matches (indexLookup table name layout values consistent) item
      (keyEqualities layout values) where
  value := by
    intro equality hmem
    obtain ⟨⟨⟨name, position, value⟩, place⟩, hpart, rfl⟩ := List.mem_map.mp hmem
    exact h name value (mem_indexParts (List.fst_mem_of_mem_zipIdx hpart))
  nameMark := by
    intro equality hmem
    obtain ⟨⟨_, place⟩, -, rfl⟩ := List.mem_map.mp hmem
    exact Condition.exists_toList_placeholder place
  valueMark := by
    intro equality hmem
    obtain ⟨⟨⟨_, position, _⟩, _⟩, -, rfl⟩ := List.mem_map.mp hmem
    exact isPlaceholder_position position
  nodup_nameMarks := by
    have hmarks : (keyEqualities layout values).map Equality.nameMark =
        ((indexParts layout values).zipIdx.map Prod.snd).map placeholder := by
      rw [keyEqualities, List.map_map, List.map_map]
      rfl
    rw [hmarks]
    exact (List.nodup_zipIdx_map_snd _).map fun _ _ => Condition.placeholder_injective
  nodup_valueMarks := by
    have hmarks : (keyEqualities layout values).map Equality.valueMark =
        (((indexParts layout values).zipIdx.map Prod.fst).map fun part => part.2.1).map
          fun position => ":v" ++ toString position := by
      rw [keyEqualities, List.map_map, List.map_map, List.map_map]
      rfl
    rw [hmarks, List.zipIdx_map_fst]
    exact (nodup_indexParts layout values).map fun _ _ => position_injective
  keyCondition := by
    simp only [indexLookup, keyEqualities, List.map_map]
    rfl
  names := by
    simp only [indexLookup, keyEqualities, List.map_map]
    rfl
  values := by
    simp only [indexLookup, keyEqualities, List.map_map]
    rfl

/-- The query for a key of one layout that is made with another one looks up the attributes that
    both layouts have. -/
theorem looksUp_indexLookup (table name : String) (layout : KeyLayout) (consistent : Bool)
    {chosen : KeyLayout} (hvalues : chosen.valuesOf item = .ok values)
    (hchosen : chosen.IsComplete item) :
    LooksUp (indexLookup table name layout values consistent) item
      (layout.names.filter fun name => name ∈ chosen.names) := by
  have hheld : ∀ name value, Dict.get? values name = some value →
      Dict.get? item name = some value := by
    intro name value hvalue
    rw [KeyLayout.get?_valuesOf hvalues] at hvalue
    split_ifs at hvalue
    exact hvalue
  have hin : ∀ name, (Dict.get? values name).isSome = decide (name ∈ chosen.names) := by
    intro name
    rw [KeyLayout.get?_valuesOf hvalues]
    split_ifs with hname
    · obtain ⟨value, hvalue⟩ := Option.isSome_iff_exists.mp (hchosen name hname)
      simp [AttributeMap.get?_of_setValue? hvalue, hname]
    · simp [hname]
  refine ⟨_, matches_indexLookup table name layout consistent hheld, ?_⟩
  rw [names_keyEqualities, List.filter_congr fun name _ => hin name]

end

/-! ## The look-up -/

section
variable {client : Client} {type : ItemType} {table : String} {item : Json}
  {attributes : AttributeMap} {schema : ItemSchema}

/-- An item with a key in an index is asked for by the layout of the first index of that name. -/
theorem request?_get_of_index (hitem : AttributeMap.ofDocument item = .ok attributes)
    (hschema : (client.cache.schemaFor type attributes).1 = .ok schema) {values : AttributeMap}
    {name : String} {kind : IndexKind}
    (hkey : schema.anyKey attributes = .ok ⟨values, some (name, kind)⟩) {first : IndexSchema}
    (hfirst : schema.index? name = some first) (consistent : Bool) :
    (client.get type table item consistent).1.request? = some (.query
      (indexLookup table name first.key values (consistent && kind ≠ .global))) := by
  have hresolve := fst_resolve ItemSchema.anyKey hschema
  rw [hkey] at hresolve
  rw [get, hitem]
  simp only [hresolve, Except.mapError, Except.map, withKey, hfirst]
  rfl

/-- An item without primary key is asked for by one query on the first index that it has a key in.
    The query looks it up by this key exactly if the first index of the same name lists the
    attributes of the key in the same order, so always if no index before it has its name. -/
theorem get_looks_up {index : IndexSchema} {before behind : List IndexSchema}
    (hitem : AttributeMap.ofDocument item = .ok attributes)
    (hschema : (client.cache.schemaFor type attributes).1 = .ok schema)
    (hprimary : ¬ schema.primary.IsComplete attributes)
    (hindexes : schema.indexes = before ++ index :: behind)
    (hbefore : ∀ other ∈ before, ¬ other.key.IsComplete attributes)
    (hindex : index.key.IsComplete attributes) (consistent : Bool) :
    ∃ input first, (client.get type table item consistent).1.request? = some (.query input) ∧
      input.table = table ∧ input.index = some index.name ∧ input.limit = some 1 ∧
      input.filter = none ∧ input.startKey = none ∧
      (input.consistentRead = true ↔ consistent = true ∧ index.kind ≠ .global) ∧
      schema.index? index.name = some first ∧
      (LooksUp input attributes index.key.names ↔
        (first.key.names.filter fun name => name ∈ index.key.names) = index.key.names) ∧
      ((∀ other ∈ before, other.name ≠ index.name) →
        LooksUp input attributes index.key.names) := by
  obtain ⟨values, hvalues, hkey⟩ := ItemSchema.secondaryKey?_eq_some hindexes hbefore hindex
  obtain ⟨first, hfirst⟩ : ∃ first, schema.index? index.name = some first :=
    Option.isSome_iff_exists.mp (List.find?_isSome.mpr ⟨index, by simp [hindexes], by simp⟩)
  refine ⟨_, first, request?_get_of_index hitem hschema (ItemSchema.anyKey_eq_ok hprimary hkey)
    hfirst consistent, rfl, rfl, rfl, rfl, rfl, by simp [indexLookup], hfirst, ?_⟩
  have hsent := looksUp_indexLookup table index.name first.key
    (consistent && index.kind ≠ .global) hvalues hindex
  have hright : LooksUp _ attributes index.key.names ↔
      (first.key.names.filter fun name => name ∈ index.key.names) = index.key.names :=
    ⟨hsent.unique, fun heq => heq ▸ hsent⟩
  refine ⟨hright, fun hnames => hright.mpr ?_⟩
  obtain rfl := Option.some.inj (hfirst.symm.trans (ItemSchema.index?_eq_some hindexes hnames))
  simp

end

/-- The indexes of tracks: a global one by genre, and a local one by title. -/
def trackSchema : ItemSchema where
  primary := .ofHashRange "album" "no"
  indexes := [⟨"by-genre", .global, .ofHash "genre", []⟩,
    ⟨"by-title", .localToTable, .ofHashRange "album" "title", []⟩]

/-- A track that is looked up by its title: the first index needs an attribute that is not set. -/
theorem get_looks_up_title : trackSchema.fault? = none ∧
    ∃ input, (get {} ⟨"track", some trackSchema, some⟩ "T"
        (.object [("album", .string "Low"), ("genre", .string ""), ("title", .string "Be")])
        true).1.request? = some (.query input) ∧
      input.index = some "by-title" ∧ input.consistentRead = true ∧
      LooksUp input [("album", .string "Low"), ("genre", .string ""), ("title", .string "Be")]
        ["album", "title"] := by
  obtain ⟨input, -, hrequest, -, hindex, -, -, -, hconsistent, -, -, hlooksUp⟩ :=
    @get_looks_up {} ⟨"track", some trackSchema, some⟩ "T"
      (.object [("album", .string "Low"), ("genre", .string ""), ("title", .string "Be")])
      [("album", .string "Low"), ("genre", .string ""), ("title", .string "Be")] trackSchema
      ⟨"by-title", .localToTable, .ofHashRange "album" "title", []⟩
      [⟨"by-genre", .global, .ofHash "genre", []⟩] [] rfl rfl (by decide) rfl (by decide)
      (by decide) true
  exact ⟨by decide, input, hrequest, hindex, hconsistent.mpr ⟨rfl, by decide⟩,
    hlooksUp (by decide)⟩

/-- Two indexes of one name. -/
def doubledSchema : ItemSchema where
  primary := .ofHash "id"
  indexes := [⟨"by", .global, .ofHash "a", []⟩, ⟨"by", .global, .ofHash "b", []⟩]

/-- An item with a key in the second index only is asked for with an empty key condition. -/
theorem not_looksUp_doubledName : ¬ ∀ (client : Client) (type : ItemType) (table : String)
    (item : Json) (attributes : AttributeMap) (schema : ItemSchema) (index : IndexSchema)
    (before behind : List IndexSchema) (consistent : Bool), schema.fault? = none →
    AttributeMap.ofDocument item = .ok attributes →
    (client.cache.schemaFor type attributes).1 = .ok schema →
    ¬ schema.primary.IsComplete attributes → schema.indexes = before ++ index :: behind →
    (∀ other ∈ before, ¬ other.key.IsComplete attributes) → index.key.IsComplete attributes →
    ∃ input, (client.get type table item consistent).1.request? = some (.query input) ∧
      LooksUp input attributes index.key.names := by
  intro h
  obtain ⟨input, hrequest, equalities, hmatches, hnames⟩ := h {} ⟨"item", some doubledSchema, some⟩
    "T" (.object [("b", .string "x")]) [("b", .string "x")] doubledSchema
    ⟨"by", .global, .ofHash "b", []⟩ [⟨"by", .global, .ofHash "a", []⟩] [] false (by decide) rfl rfl
    (by decide) rfl (by decide) (by decide)
  have hempty : input.keyCondition = "" := by
    cases hrequest
    rfl
  have hmentioned := hmatches.names_eq
  rw [hempty, hnames] at hmentioned
  contradiction

end Client

end TableClient
