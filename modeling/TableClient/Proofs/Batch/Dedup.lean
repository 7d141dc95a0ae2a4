import Mathlib
import TableClient.Proofs.Batch.Round

/-!
# Items that share a slot

Two items of a table share a slot when their keys are known by the same bytes, which hold the
values of the keys in the order of their layouts, but not the names. Items of a type that declares
a schema have one layout and share a slot exactly when their keys are equal. Documents of no
declared type each bring their own layout, so two of them whose values are the same under other
names share a slot as well, and only the later one is sent.

Results:
* `sharesSlot_iff_values_eq`: two items share a slot exactly when their keys have the same values
  in order.
* `sharesSlot_iff_key_eq_iff`: when sharing a slot is the same as having equal keys.
-/

namespace TableClient.Batch

/-- Two positions of a table share a slot. -/
def SharesSlot (batch : Batch) (table : String) (i j : Nat) : Prop :=
  ∃ slot ∈ batch.slots, batch.tableName slot.table = table ∧ i ∈ slot.positions ∧
    j ∈ slot.positions

instance (batch : Batch) (table : String) (i j : Nat) : Decidable (batch.SharesSlot table i j) :=
  inferInstanceAs (Decidable (∃ slot ∈ batch.slots, _))

/-! ## Slots and keys -/

/-- Two items of a table share a slot exactly when their keys have the same values in order. -/
theorem sharesSlot_iff_values_eq {purpose : Purpose} {consistent : Bool} {orders : List Order}
    {batch : Batch} (h : Registered purpose consistent orders batch) {order : Order}
    (horder : order ∈ orders) {i j : Nat} {a b : Entry} (hi : order.entryAt? purpose i = some a)
    (hj : order.entryAt? purpose j = some b) :
    batch.SharesSlot order.table i j ↔ a.layout.values a.key = b.layout.values b.key := by
  have hmem : ∀ {position : Nat} {entry : Entry}, order.entryAt? purpose position = some entry →
      (⟨order.table, position, entry⟩ : Filing) ∈ allFilings purpose orders := fun hentry =>
    (h.mem_allFilings horder rfl).mpr hentry
  -- in a slot of the table, a position stands for the one item that was filed with it
  have hkey : ∀ {slot : Slot} {position : Nat} {entry : Entry}, slot ∈ batch.slots →
      batch.tableName slot.table = order.table → order.entryAt? purpose position = some entry →
      position ∈ slot.positions →
        slot.key = entry.layout.identity order.table entry.key := by
    intro slot position entry hslot htable hentry hposition
    have hholds := h.filed.holds slot hslot
    obtain ⟨filing, hfiling, hfilingKey, rfl⟩ := hholds.mem_positions.mp hposition
    have hname := (hholds.tableName_eq hfiling hfilingKey).symm.trans htable
    have hsame := (h.mem_allFilings horder hname).mp hfiling
    obtain rfl : filing.entry = entry := Option.some.inj (hsame.symm.trans hentry)
    rw [← hfilingKey, Filing.key, hname]
  constructor
  · rintro ⟨slot, hslot, htable, hpi, hpj⟩
    have heq := (hkey hslot htable hi hpi).symm.trans (hkey hslot htable hj hpj)
    exact (KeyLayout.identity_inj.mp heq).2
  · intro hvalues
    obtain ⟨slot, hslot, hslotKey⟩ := h.filed.covers _ (hmem hi)
    have hholds := h.filed.holds slot hslot
    refine ⟨slot, hslot, hholds.tableName_eq (hmem hi) hslotKey.symm, ?_, ?_⟩
    · exact hholds.mem_positions.mpr ⟨_, hmem hi, hslotKey.symm, rfl⟩
    · refine hholds.mem_positions.mpr ⟨_, hmem hj, ?_, rfl⟩
      rw [hslotKey]
      exact KeyLayout.identity_inj.mpr ⟨rfl, hvalues.symm⟩

/-! ## Equal keys -/

/-- Keys with the same values under the same names are equal. -/
theorem key_eq_of_values_eq {layout layout' : KeyLayout} {item item' key key' : AttributeMap}
    (h : layout.valuesOf item = .ok key) (h' : layout'.valuesOf item' = .ok key')
    (hnames : layout.names = layout'.names) (hvalues : layout.values key = layout'.values key') :
    key = key' := by
  have hlayout : layout'.values key' = layout.values key' := by
    rw [KeyLayout.values, KeyLayout.values, hnames]
  have hagree := (layout.values_eq_iff key key').mp (hvalues.trans hlayout)
  refine Dict.Sorted.ext (KeyLayout.sorted_valuesOf h) (KeyLayout.sorted_valuesOf h') fun name => ?_
  by_cases hname : name ∈ layout.names
  · exact hagree name hname
  · rw [KeyLayout.get?_valuesOf h, KeyLayout.get?_valuesOf h', if_neg hname,
      if_neg (hnames ▸ hname)]

theorem valuesOf_of_entryOf {purpose : Purpose} {cache : SchemaCache} {type : ItemType}
    {item : Json} {entry : Entry} (h : (entryOf purpose cache type item).1 = .ok entry) :
    ∃ attributes, entry.layout.valuesOf attributes = .ok entry.key := by
  obtain ⟨attributes, schema, key, -, -, hkey, rfl⟩ := of_entryOf_eq_ok h
  exact ⟨_, ItemSchema.valuesOf_of_primaryKey hkey⟩

/-- The layouts of the items of a type are the same, or each item is keyed by all that is sent of
    it. -/
theorem entryOf_cases {purpose : Purpose} {cache : SchemaCache} {type : ItemType} :
    (∃ names, ∀ item entry, (entryOf purpose cache type item).1 = .ok entry →
      entry.layout.names = names) ∨
    ∀ item entry, item.Canonical → (entryOf purpose cache type item).1 = .ok entry →
      entry.payload = entry.key ∧ entry.layout.names = Dict.keys entry.key := by
  by_cases hdeclared : ∃ schema, ∀ item, (cache.schemaFor type item).1 = .ok schema
  · left
    obtain ⟨declared, hdeclared⟩ := hdeclared
    refine ⟨declared.primary.names, fun item entry h => ?_⟩
    obtain ⟨attributes, schema, key, -, hschema, -, rfl⟩ := of_entryOf_eq_ok h
    rw [hdeclared] at hschema
    rw [Except.ok.inj hschema]
  · right
    intro item entry hitem h
    obtain ⟨attributes, schema, key, hattributes, hschema, hkey, rfl⟩ := of_entryOf_eq_ok h
    rcases SchemaCache.schemaFor_cases hschema with hall | hall
    · exact absurd ⟨schema, hall⟩ hdeclared
    · have hsorted := AttributeMap.sorted_ofDocument hitem hattributes
      have hvalues := ItemSchema.valuesOf_of_primaryKey hkey
      rw [hall] at hschema
      obtain rfl := Except.ok.inj hschema
      have hself := KeyLayout.valuesOf_ofDocument ?_ hvalues
      · refine ⟨?_, ?_⟩
        · simp only [hself]
          split_ifs <;> rfl
        · show (KeyLayout.ofDocument _).names = Dict.keys key.values
          rw [KeyLayout.names_ofDocument, hself]
      · split_ifs
        · exact AttributeMap.sorted_withoutEmpty hsorted
        · exact hsorted

/-- The layouts of the items of a type are the same, or each item is keyed by what its key holds. -/
theorem names_of_entryOf {purpose : Purpose} {cache : SchemaCache} {type : ItemType} :
    (∃ names, ∀ item entry, (entryOf purpose cache type item).1 = .ok entry →
      entry.layout.names = names) ∨
    ∀ item entry, item.Canonical → (entryOf purpose cache type item).1 = .ok entry →
      entry.layout.names = Dict.keys entry.key :=
  entryOf_cases.imp_right fun hall item entry hitem h => (hall item entry hitem h).2

/-- Two items of a table share a slot exactly when their keys have the same values in order. This is
    the same as having equal keys unless the keys have these values under other names. -/
theorem sharesSlot_iff_key_eq_iff {purpose : Purpose} {consistent : Bool} {orders : List Order}
    {batch : Batch} (h : Registered purpose consistent orders batch) {order : Order}
    (horder : order ∈ orders) (hitems : ∀ item ∈ order.items, item.Canonical) {i j : Nat}
    {a b : Entry} (hi : order.entryAt? purpose i = some a)
    (hj : order.entryAt? purpose j = some b) :
    (batch.SharesSlot order.table i j ↔ a.layout.values a.key = b.layout.values b.key) ∧
      ((batch.SharesSlot order.table i j ↔ a.key = b.key) ↔
        (a.layout.values a.key = b.layout.values b.key → a.layout.names = b.layout.names)) := by
  obtain ⟨item, hitem, hentry⟩ := Order.entryAt?_eq_some_iff.mp hi
  obtain ⟨item', hitem', hentry'⟩ := Order.entryAt?_eq_some_iff.mp hj
  obtain ⟨attributes, hkey⟩ := valuesOf_of_entryOf hentry
  obtain ⟨attributes', hkey'⟩ := valuesOf_of_entryOf hentry'
  have hnames : a.key = b.key → a.layout.names = b.layout.names := by
    intro heq
    rcases @names_of_entryOf purpose order.cache order.type with ⟨names, hall⟩ | hall
    · rw [hall item a hentry, hall item' b hentry']
    · rw [hall item a (hitems item (List.mem_of_getElem? hitem)) hentry, heq,
        hall item' b (hitems item' (List.mem_of_getElem? hitem')) hentry']
  have hequal : a.key = b.key ↔
      a.layout.values a.key = b.layout.values b.key ∧ a.layout.names = b.layout.names := by
    constructor
    · intro heq
      refine ⟨?_, hnames heq⟩
      rw [KeyLayout.values, KeyLayout.values, hnames heq, heq]
    · rintro ⟨hvalues, hsame⟩
      exact key_eq_of_values_eq hkey hkey' hsame hvalues
  have hshares := sharesSlot_iff_values_eq h horder hi hj
  refine ⟨hshares, ?_⟩
  rw [hshares, hequal]
  constructor
  · intro hiff hvalues
    exact (hiff.mp hvalues).2
  · intro hsame
    exact ⟨fun hvalues => ⟨hvalues, hsame hvalues⟩, And.left⟩

/-- Three documents: the first and the last have the same key, the second has its value under
    another name. -/
def sameValues : Order where
  table := "T"
  type := ⟨"document", none, some⟩
  items := [.object [("a", .string "x")], .object [("b", .string "x")],
    .object [("a", .string "x")]]

/-- The batch that stores the three documents. -/
def sameValuesBatch : Batch :=
  (register { purpose := .put } sameValues.cache sameValues.table sameValues.type
    sameValues.items).1

/-- The first and the last document share a slot, and have equal keys. -/
theorem sharesSlot_of_same_document :
    let entry : Entry := ⟨.ofHash "a", [("a", .string "x")], [("a", .string "x")]⟩
    Registered .put false [sameValues] sameValuesBatch ∧
      (∀ item ∈ sameValues.items, item.Canonical) ∧
      sameValues.entryAt? .put 0 = some entry ∧ sameValues.entryAt? .put 2 = some entry ∧
      (sameValuesBatch.SharesSlot sameValues.table 0 2 ↔ entry.key = entry.key) := by
  have hbatch : Registered .put false [sameValues] sameValuesBatch :=
    .snoc .empty sameValues (fun _ h => absurd h List.not_mem_nil)
  have hitems : ∀ item ∈ sameValues.items, item.Canonical := by
    simp [sameValues, Json.Canonical, Json.CanonicalFields, Dict.Sorted]
  have hfirst : sameValues.entryAt? .put 0 =
      some ⟨.ofHash "a", [("a", .string "x")], [("a", .string "x")]⟩ := by decide
  have hlast : sameValues.entryAt? .put 2 =
      some ⟨.ofHash "a", [("a", .string "x")], [("a", .string "x")]⟩ := by decide
  refine ⟨hbatch, hitems, hfirst, hlast, ?_⟩
  exact (sharesSlot_iff_key_eq_iff hbatch (List.mem_singleton_self _) hitems hfirst hlast).2.mpr
    fun _ => rfl

/-- The first two documents share a slot, but have different keys. -/
theorem sharesSlot_of_other_name :
    let first : Entry := ⟨.ofHash "a", [("a", .string "x")], [("a", .string "x")]⟩
    let second : Entry := ⟨.ofHash "b", [("b", .string "x")], [("b", .string "x")]⟩
    sameValues.entryAt? .put 0 = some first ∧ sameValues.entryAt? .put 1 = some second ∧
      ¬ (sameValuesBatch.SharesSlot sameValues.table 0 1 ↔ first.key = second.key) := by
  decide

end TableClient.Batch
