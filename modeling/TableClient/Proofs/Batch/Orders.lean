import Mathlib
import TableClient.Proofs.Batch.Registration
import TableClient.Proofs.Batch.Report
import TableClient.Proofs.Key.Resolve

/-!
# Batches of orders

A batch is registered order by order, each with the items of one table. What an item is filed with
depends on the item, its type and the schemas known when its order was registered, but on no other
item of the order.

Results:
* `entryOf_stable`: an item does not change what the later items of its type are registered with.
* `Registered.filed`: whatever orders are registered, the slots are in step with their filings.
* `Registered.get?_report`: the items without key are reported, and no others.
-/

namespace TableClient.Batch

/-! ## Entries of items -/

theorem entryOf_fst (purpose : Purpose) (cache : SchemaCache) (type : ItemType) (item : Json) :
    (entryOf purpose cache type item).1 = do
      let attributes ← (AttributeMap.ofDocument item).mapError .codec
      let attributes := if purpose = .put then attributes.withoutEmpty else attributes
      let schema ← (cache.schemaFor type attributes).1.mapError .invalidKey
      let key ← (schema.primaryKey attributes).mapError .invalidKey
      return ⟨schema.primary, key.values, if purpose = .put then attributes else key.values⟩ := by
  unfold entryOf
  cases hdocument : AttributeMap.ofDocument item with
  | error error => rfl
  | ok attributes =>
    simp only [Except.mapError, bind, Except.bind]
    rcases cache.schemaFor type (if purpose = .put then attributes.withoutEmpty else attributes)
      with ⟨_ | schema, cache⟩
    · rfl
    · simp only
      cases schema.primaryKey (if purpose = .put then attributes.withoutEmpty else attributes) <;>
        rfl

theorem entryOf_snd (purpose : Purpose) (cache : SchemaCache) (type : ItemType) (item : Json) :
    (entryOf purpose cache type item).2 =
      match AttributeMap.ofDocument item with
      | .error _ => cache
      | .ok attributes => (cache.schemaFor type
          (if purpose = .put then attributes.withoutEmpty else attributes)).2 := by
  unfold entryOf
  cases hdocument : AttributeMap.ofDocument item with
  | error error => rfl
  | ok attributes =>
    simp only
    rcases cache.schemaFor type (if purpose = .put then attributes.withoutEmpty else attributes)
      with ⟨_ | schema, cache⟩
    · rfl
    · simp only
      cases schema.primaryKey (if purpose = .put then attributes.withoutEmpty else attributes) <;>
        rfl

/-- An item does not change what the later items of its type are registered with. -/
theorem entryOf_stable (purpose : Purpose) (cache : SchemaCache) (type : ItemType)
    (first item : Json) :
    (entryOf purpose (entryOf purpose cache type first).2 type item).1 =
      (entryOf purpose cache type item).1 := by
  rw [entryOf_snd]
  cases AttributeMap.ofDocument first with
  | error error => rfl
  | ok attributes => simp only [entryOf_fst, SchemaCache.schemaFor_stable]

/-- The parts that an entry is made of. -/
theorem of_entryOf_eq_ok {purpose : Purpose} {cache : SchemaCache} {type : ItemType} {item : Json}
    {entry : Entry} (h : (entryOf purpose cache type item).1 = .ok entry) :
    ∃ attributes schema key, AttributeMap.ofDocument item = .ok attributes ∧
      (cache.schemaFor type
        (if purpose = .put then attributes.withoutEmpty else attributes)).1 = .ok schema ∧
      schema.primaryKey (if purpose = .put then attributes.withoutEmpty else attributes) =
        .ok key ∧
      entry = ⟨schema.primary, key.values, if purpose = .put then attributes.withoutEmpty
        else key.values⟩ := by
  rw [entryOf_fst] at h
  cases hdocument : AttributeMap.ofDocument item with
  | error error => simp [hdocument, Except.mapError, bind, Except.bind] at h
  | ok attributes =>
    simp only [hdocument, Except.mapError, bind, Except.bind] at h
    split at h
    · cases h
    · rename_i schema hschema
      split at h
      · cases h
      · rename_i key hkey
        refine ⟨attributes, schema, key, rfl, ?_, ?_, ?_⟩
        · revert hschema
          cases (cache.schemaFor type _).1 <;> simp
        · revert hkey
          cases schema.primaryKey _ <;> simp
        · injection h with h
          rw [← h]
          split <;> rfl

/-- The key and the payload of an item have the same values under the layout of the key. -/
theorem values_payload_of_entryOf {purpose : Purpose} {cache : SchemaCache} {type : ItemType}
    {item : Json} {entry : Entry} (h : (entryOf purpose cache type item).1 = .ok entry) :
    entry.layout.values entry.payload = entry.layout.values entry.key := by
  obtain ⟨attributes, schema, key, -, -, hkey, rfl⟩ := of_entryOf_eq_ok h
  by_cases hput : purpose = .put
  · simp only [hput, if_true] at hkey ⊢
    exact (KeyLayout.values_valuesOf (ItemSchema.valuesOf_of_primaryKey hkey)).symm
  · simp only [hput, if_false]

/-- The items of a type that declares a schema are registered with its key, whatever other items
    were registered before. -/
theorem entryOf_declared {purpose : Purpose} {cache cache' : SchemaCache} {type : ItemType}
    {schema : ItemSchema} (hdeclared : type.schema? = some schema) (hvalid : schema.fault? = none)
    (h : cache.Agrees type) (h' : cache'.Agrees type) (item : Json) :
    (entryOf purpose cache type item).1 = (entryOf purpose cache' type item).1 := by
  simp only [entryOf_fst, h.schemaFor_declared hdeclared hvalid,
    h'.schemaFor_declared hdeclared hvalid]

theorem layout_of_declared {purpose : Purpose} {cache : SchemaCache} {type : ItemType}
    {schema : ItemSchema} (hdeclared : type.schema? = some schema) (hvalid : schema.fault? = none)
    (hagrees : cache.Agrees type) {item : Json} {entry : Entry}
    (h : (entryOf purpose cache type item).1 = .ok entry) : entry.layout = schema.primary := by
  obtain ⟨attributes, schema', key, -, hschema, -, rfl⟩ := of_entryOf_eq_ok h
  rw [hagrees.schemaFor_declared hdeclared hvalid] at hschema
  rw [Except.ok.inj hschema]

theorem agrees_entryOf {cache : SchemaCache} {type other : ItemType} (h : cache.Agrees type)
    (hsame : other.name = type.name → other.schema? = type.schema?) (purpose : Purpose)
    (item : Json) : (entryOf purpose cache other item).2.Agrees type := by
  rw [entryOf_snd]
  cases AttributeMap.ofDocument item with
  | error error => exact h
  | ok attributes => exact h.schemaFor hsame _

/-! ## Items of one order -/

/-- The items of a table, and the schemas known when they are registered. -/
structure Order where
  table : String
  type : ItemType
  items : List Json
  cache : SchemaCache := {}

/-- The filings of items of a table, the first of which has the given position. -/
def filings (purpose : Purpose) (cache : SchemaCache) (table : String) (type : ItemType)
    (position : Nat) (items : List Json) : List Filing :=
  (items.zipIdx position).filterMap fun (item, position) =>
    (entryOf purpose cache type item).1.toOption.map fun entry => ⟨table, position, entry⟩

/-- Why an item has no key, if it has none. -/
def keyError? (purpose : Purpose) (cache : SchemaCache) (type : ItemType) (item : Json) :
    Option ItemError :=
  match (entryOf purpose cache type item).1 with
  | .ok _ => none
  | .error error => some error

namespace Order

/-- What the item at a position is registered with, if it has a key. -/
def entryAt? (order : Order) (purpose : Purpose) (position : Nat) : Option Entry :=
  order.items[position]?.bind fun item => (entryOf purpose order.cache order.type item).1.toOption

/-- Why the item at a position has no key, if it has none. -/
def errorAt? (order : Order) (purpose : Purpose) (position : Nat) : Option ItemError :=
  order.items[position]?.bind (keyError? purpose order.cache order.type)

/-- The filings of the items that have a key, in order. -/
def filings (order : Order) (purpose : Purpose) : List Filing :=
  Batch.filings purpose order.cache order.table order.type 0 order.items

theorem entryAt?_eq_some_iff {order : Order} {purpose : Purpose} {position : Nat} {entry : Entry} :
    order.entryAt? purpose position = some entry ↔ ∃ item, order.items[position]? = some item ∧
      (entryOf purpose order.cache order.type item).1 = .ok entry := by
  rw [entryAt?, Option.bind_eq_some_iff]
  refine exists_congr fun item => and_congr_right fun _ => ?_
  cases (entryOf purpose order.cache order.type item).1 <;> simp [Except.toOption]

/-- The filings of an order are the items that have a key. -/
theorem mem_filings {order : Order} {purpose : Purpose} {filing : Filing} :
    filing ∈ order.filings purpose ↔
      filing.table = order.table ∧ order.entryAt? purpose filing.position = some filing.entry := by
  simp only [filings, Batch.filings, List.mem_filterMap, Prod.exists, List.mem_zipIdx_iff_getElem?,
    entryAt?, Option.bind_eq_some_iff, Option.map_eq_some_iff]
  constructor
  · rintro ⟨item, position, hitem, entry, hentry, rfl⟩
    exact ⟨rfl, item, hitem, hentry⟩
  · rintro ⟨htable, item, hitem, hentry⟩
    exact ⟨item, filing.position, hitem, filing.entry, hentry, by rw [← htable]⟩

/-- An item that has a key is not reported. -/
theorem errorAt?_of_entryAt? {order : Order} {purpose : Purpose} {position : Nat}
    {entry : Entry} (h : order.entryAt? purpose position = some entry) :
    order.errorAt? purpose position = none := by
  obtain ⟨item, hitem, hentry⟩ := entryAt?_eq_some_iff.mp h
  simp only [errorAt?, hitem, Option.bind_some, keyError?, hentry]

/-- An item of an order has a key, or there is a reason why it has none. -/
theorem isSome_errorAt? {order : Order} {position : Nat} (h : position < order.items.length)
    (purpose : Purpose) :
    (order.errorAt? purpose position).isSome = (order.entryAt? purpose position).isNone := by
  rw [errorAt?, entryAt?, List.getElem?_eq_getElem h, Option.bind_some, Option.bind_some, keyError?]
  cases (entryOf purpose order.cache order.type order.items[position]).1 <;> rfl

/-- The positions of the items that have a key increase. -/
theorem pairwise_filings (order : Order) (purpose : Purpose) :
    (order.filings purpose).Pairwise fun filing other => filing.position < other.position := by
  have hpositions : (order.items.zipIdx.map Prod.snd).Pairwise (· < ·) := by
    rw [List.zipIdx_map_snd]
    exact List.pairwise_lt_range'
  refine List.pairwise_filterMap.mpr ((List.pairwise_map.mp hpositions).imp ?_)
  rintro ⟨item, position⟩ ⟨other, otherPosition⟩ hlt filing hfiling filing' hfiling'
  obtain ⟨-, -, rfl⟩ := Option.map_eq_some_iff.mp hfiling
  obtain ⟨-, -, rfl⟩ := Option.map_eq_some_iff.mp hfiling'
  exact hlt

end Order

/-- The filings of all orders, in order. -/
def allFilings (purpose : Purpose) (orders : List Order) : List Filing :=
  orders.flatMap fun order => order.filings purpose

theorem allFilings_append (purpose : Purpose) (orders : List Order) (order : Order) :
    allFilings purpose (orders ++ [order]) =
      allFilings purpose orders ++ order.filings purpose := by
  rw [allFilings, List.flatMap_append, List.flatMap_singleton, allFilings]

/-- The key and the payload of a filed item have the same values under the layout of the key. -/
theorem values_payload_of_mem_allFilings {purpose : Purpose} {orders : List Order}
    {filing : Filing} (h : filing ∈ allFilings purpose orders) :
    filing.entry.layout.values filing.entry.payload =
      filing.entry.layout.values filing.entry.key := by
  obtain ⟨order, -, hmem⟩ := List.mem_flatMap.mp h
  obtain ⟨-, hentry⟩ := Order.mem_filings.mp hmem
  obtain ⟨item, -, hok⟩ := Order.entryAt?_eq_some_iff.mp hentry
  exact values_payload_of_entryOf hok

theorem filings_cons (purpose : Purpose) (cache : SchemaCache) (table : String) (type : ItemType)
    (position : Nat) (item : Json) (items : List Json) :
    filings purpose cache table type position (item :: items) =
      ((entryOf purpose cache type item).1.toOption.map (Filing.mk table position)).toList ++
        filings purpose (entryOf purpose cache type item).2 table type (position + 1) items := by
  simp only [filings, entryOf_stable, List.zipIdx_cons, List.filterMap_cons]
  cases (entryOf purpose cache type item).1.toOption <;> rfl

theorem keyError?_stable (purpose : Purpose) (cache : SchemaCache) (type : ItemType)
    (first item : Json) :
    keyError? purpose (entryOf purpose cache type first).2 type item =
      keyError? purpose cache type item := by
  simp only [keyError?, entryOf_stable]

/-- A table without its key layouts and its queue. -/
def Table.face (table : Table) : String × ItemType × List Json :=
  (table.name, table.type, table.items)

theorem names_of_faces {tables tables' : List Table}
    (h : tables.map Table.face = tables'.map Table.face) :
    tables.map Table.name = tables'.map Table.name := by
  have hnames := congrArg (List.map Prod.fst) h
  rw [List.map_map, List.map_map] at hnames
  exact hnames

theorem face_addLayout (layout : KeyLayout) (table : Table) :
    (table.addLayout layout).face = table.face := by
  unfold Table.addLayout
  split <;> rfl

section AddItem

variable (batch : Batch) (place : Nat) (name : String) (position : Nat) (entry : Entry)

theorem addItem_purpose : (batch.addItem place name position entry).purpose = batch.purpose := by
  simp only [addItem]
  split <;> rfl

theorem addItem_fault? : (batch.addItem place name position entry).fault? = batch.fault? := by
  simp only [addItem]
  split <;> rfl

theorem addItem_report : (batch.addItem place name position entry).report = batch.report := by
  simp only [addItem]
  split <;> rfl

theorem addItem_faces :
    (batch.addItem place name position entry).tables.map Table.face =
      batch.tables.map Table.face := by
  simp only [addItem]
  split
  · exact map_modify_of_eq (face_addLayout entry.layout) _ _
  · rw [List.modify_modify_eq]
    refine map_modify_of_eq (fun table => ?_) _ _
    exact face_addLayout entry.layout table

theorem addItem_names :
    (batch.addItem place name position entry).tables.map Table.name =
      batch.tables.map Table.name :=
  names_of_faces (addItem_faces batch place name position entry)

end AddItem

/-! ## Registering an order -/

theorem Filed.withReport {batch : Batch} {log : List Filing} (h : Filed batch log)
    (report : BatchReport) : Filed { batch with report } log :=
  ⟨h.names_nodup, h.pending_eq, h.retry_eq, h.fresh_perm, h.keys_nodup, h.holds, h.covers,
    h.layouts, h.tables_mem⟩

/-- The batch with a table behind the others that no item is registered for yet. -/
def openTable (batch : Batch) (name : String) (type : ItemType) (items : List Json) : Batch :=
  { batch with tables := batch.tables ++ [{ name, type, items }] }

theorem openTable_names (batch : Batch) (name : String) (type : ItemType) (items : List Json) :
    (batch.openTable name type items).tables.map Table.name =
      batch.tables.map Table.name ++ [name] :=
  List.map_append

/-- A table without items changes nothing for the slots. -/
theorem Filed.openTable {batch : Batch} {log : List Filing} (h : Filed batch log) {name : String}
    (hname : name ∉ batch.tables.map Table.name) (type : ItemType) (items : List Json) :
    Filed (batch.openTable name type items) log := by
  refine ⟨?_, h.pending_eq, h.retry_eq, ?_, h.keys_nodup, ?_, h.covers, ?_, ?_⟩
  · rw [openTable_names]
    refine h.names_nodup.append (List.nodup_singleton _) ?_
    exact List.disjoint_singleton.mpr hname
  · simpa [Batch.openTable] using h.fresh_perm
  · intro slot hslot
    have hholds := h.holds slot hslot
    obtain ⟨other, hother, hfiled⟩ := hholds.table
    have hlt := (List.getElem?_eq_some_iff.mp hother).1
    refine ⟨hholds.attempts, hholds.positions, hholds.payload, other, ?_, hfiled⟩
    rw [Batch.openTable, List.getElem?_append_left hlt, hother]
  · intro other hother layout hlayout
    rcases List.mem_append.mp hother with hmem | hmem
    · exact h.layouts other hmem layout hlayout
    · rw [List.mem_singleton.mp hmem] at hlayout
      exact absurd hlayout List.not_mem_nil
  · intro filing hfiling
    obtain ⟨other, hother, hsame⟩ := h.tables_mem filing hfiling
    exact ⟨other, List.mem_append_left _ hother, hsame⟩

/-- What is left as it was when the items of a table are added. -/
theorem addItems_frame (batch : Batch) (cache : SchemaCache) (place : Nat) (name : String)
    (type : ItemType) (position : Nat) (items : List Json) :
    let after := (batch.addItems cache place name type position items).1
    after.purpose = batch.purpose ∧ after.fault? = batch.fault? ∧
      after.tables.map Table.face = batch.tables.map Table.face := by
  induction items generalizing batch cache position with
  | nil => exact ⟨rfl, rfl, rfl⟩
  | cons item items ih =>
    simp only [addItems]
    cases (entryOf batch.purpose cache type item).1 with
    | ok entry =>
      obtain ⟨hpurpose, hfault, hfaces⟩ := ih (batch.addItem place name position entry)
        (entryOf batch.purpose cache type item).2 (position + 1)
      exact ⟨hpurpose.trans (addItem_purpose ..), hfault.trans (addItem_fault? ..),
        hfaces.trans (addItem_faces ..)⟩
    | error error =>
      exact ih { batch with report := batch.report.record name position error }
        (entryOf batch.purpose cache type item).2 (position + 1)

/-- Adding the items of a table files those that have a key. -/
theorem Filed.addItems {batch : Batch} {log : List Filing} (h : Filed batch log) {place : Nat}
    {name : String} (hname : (batch.tables.map Table.name)[place]? = some name)
    (cache : SchemaCache) (type : ItemType) (position : Nat) (items : List Json) :
    Filed (batch.addItems cache place name type position items).1
      (log ++ filings batch.purpose cache name type position items) := by
  induction items generalizing batch log cache position with
  | nil => simpa [Batch.addItems, filings] using h
  | cons item items ih =>
    simp only [Batch.addItems]
    rw [filings_cons]
    cases (entryOf batch.purpose cache type item).1 with
    | ok entry =>
      obtain ⟨table, htable, rfl⟩ :=
        Option.map_eq_some_iff.mp (List.getElem?_map .. ▸ hname)
      have hfiled := h.addItem htable position entry
      have := ih hfiled (by rw [addItem_names]; exact hname)
        (entryOf batch.purpose cache type item).2 (position + 1)
      rw [addItem_purpose, List.append_assoc] at this
      exact this
    | error error =>
      exact ih (h.withReport (batch.report.record name position error)) hname
        (entryOf batch.purpose cache type item).2 (position + 1)

theorem agrees_addItems {cache : SchemaCache} {type other : ItemType} (h : cache.Agrees type)
    (hsame : other.name = type.name → other.schema? = type.schema?) (batch : Batch) (place : Nat)
    (name : String) (position : Nat) (items : List Json) :
    (batch.addItems cache place name other position items).2.Agrees type := by
  induction items generalizing batch cache position with
  | nil => exact h
  | cons item items ih =>
    simp only [Batch.addItems]
    cases (entryOf batch.purpose cache other item).1 <;>
      exact ih (agrees_entryOf h hsame batch.purpose item) _ _

/-- The items that have no key are reported; all other errors stay as they are. -/
theorem get?_report_addItems (batch : Batch) (cache : SchemaCache) (place : Nat) (name : String)
    (type : ItemType) (position : Nat) (items : List Json) (table : String) (other : Nat) :
    (batch.addItems cache place name type position items).1.report.get? table other =
      if table = name ∧ position ≤ other then
        (items[other - position]?.bind (keyError? batch.purpose cache type)).or
          (batch.report.get? table other)
      else batch.report.get? table other := by
  induction items generalizing batch cache position with
  | nil => simp [addItems]
  | cons item items ih =>
    -- the error of the first item is behind what the others report, at its own position only
    have hcombine : ∀ first : Option ItemError,
        first = (if table = name ∧ other = position then
          (keyError? batch.purpose cache type item).or (batch.report.get? table other)
          else batch.report.get? table other) →
        (if table = name ∧ position + 1 ≤ other then
          (items[other - (position + 1)]?.bind (keyError? batch.purpose cache type)).or first
          else first) =
        if table = name ∧ position ≤ other then
          ((item :: items)[other - position]?.bind (keyError? batch.purpose cache type)).or
            (batch.report.get? table other)
        else batch.report.get? table other := by
      rintro first rfl
      by_cases hname : table = name
      · rcases Nat.lt_trichotomy other position with hlt | rfl | hgt
        · rw [if_neg (by omega), if_neg (by omega), if_neg (by omega)]
        · simp [hname]
        · obtain ⟨k, rfl⟩ := Nat.exists_eq_add_of_lt hgt
          have hk : position + k + 1 - position = k + 1 := by omega
          have hk' : position + k + 1 - (position + 1) = k := by omega
          rw [if_pos ⟨hname, by omega⟩, if_neg (by omega), if_pos ⟨hname, by omega⟩, hk, hk',
            List.getElem?_cons_succ]
      · simp [hname]
    have hstable : keyError? batch.purpose (entryOf batch.purpose cache type item).2 type =
        keyError? batch.purpose cache type := by
      funext other
      exact keyError?_stable batch.purpose cache type item other
    simp only [addItems]
    cases houtcome : (entryOf batch.purpose cache type item).1 with
    | ok entry =>
      rw [ih, addItem_purpose, addItem_report, hstable]
      refine hcombine _ ?_
      simp [keyError?, houtcome]
    | error error =>
      rw [ih, hstable]
      refine hcombine _ ?_
      simp [keyError?, houtcome, BatchReport.get?_record]

theorem recorded_addItems (batch : Batch) (cache : SchemaCache) (place : Nat) (name : String)
    (type : ItemType) (position : Nat) (items : List Json) :
    batch.report.Recorded (batch.addItems cache place name type position items).1.report := by
  induction items generalizing batch cache position with
  | nil => exact .refl
  | cons item items ih =>
    simp only [addItems]
    cases (entryOf batch.purpose cache type item).1 with
    | ok entry =>
      have hrest := ih (batch.addItem place name position entry)
        (entryOf batch.purpose cache type item).2 (position + 1)
      rwa [addItem_report] at hrest
    | error error =>
      have hrest := ih { batch with report := batch.report.record name position error }
        (entryOf batch.purpose cache type item).2 (position + 1)
      exact .trans (.record .refl name position error) hrest

/-! ## Batches of orders -/

/-- A batch with the orders registered for it, each for another table. -/
inductive Registered (purpose : Purpose) (consistent : Bool) : List Order → Batch → Prop
  | empty : Registered purpose consistent [] { purpose, consistent }
  | snoc {orders : List Order} {batch : Batch} (h : Registered purpose consistent orders batch)
      (order : Order) (hname : ∀ other ∈ orders, other.table ≠ order.table) :
      Registered purpose consistent (orders ++ [order])
        (batch.register order.cache order.table order.type order.items).1

/-- A table of a new name is registered by adding its items. -/
theorem register_eq {batch : Batch} (hfault : batch.fault? = none) {name : String}
    (hname : name ∉ batch.tables.map Table.name) (cache : SchemaCache) (type : ItemType)
    (items : List Json) :
    batch.register cache name type items =
      (batch.openTable name type items).addItems cache batch.tables.length name type 0 items := by
  have hnone : batch.findTable? name = none := by
    refine List.find?_eq_none.mpr fun table htable => ?_
    simp only [decide_eq_true_eq]
    rintro rfl
    exact hname (List.mem_map_of_mem htable)
  simp [register, hfault, hnone, openTable]

namespace Registered

variable {purpose : Purpose} {consistent : Bool} {orders : List Order} {batch : Batch}

theorem names_nodup (h : Registered purpose consistent orders batch) :
    (orders.map Order.table).Nodup := by
  induction h with
  | empty => exact List.nodup_nil
  | snoc h order hname ih =>
    rw [List.map_append, List.map_singleton]
    refine ih.append (List.nodup_singleton _) ?_
    simpa using hname

/-- A batch of orders can run, and has their tables. -/
theorem frame_faces (h : Registered purpose consistent orders batch) :
    batch.purpose = purpose ∧ batch.fault? = none ∧
      batch.tables.map Table.face =
        orders.map fun order => (order.table, order.type, order.items) := by
  induction h with
  | empty => exact ⟨rfl, rfl, rfl⟩
  | @snoc orders batch h order hname ih =>
    obtain ⟨hpurpose, hfault, hfaces⟩ := ih
    have hnew : order.table ∉ batch.tables.map Table.name := by
      have hnames := congrArg (List.map Prod.fst) hfaces
      rw [List.map_map, List.map_map] at hnames
      show order.table ∉ batch.tables.map (Prod.fst ∘ Table.face)
      rw [hnames]
      simpa using hname
    rw [register_eq hfault hnew]
    obtain ⟨hpurpose', hfault', hfaces'⟩ := addItems_frame
      (batch.openTable order.table order.type order.items) order.cache batch.tables.length
      order.table order.type 0 order.items
    refine ⟨hpurpose'.trans hpurpose, hfault'.trans hfault, hfaces'.trans ?_⟩
    rw [openTable, List.map_append, hfaces, List.map_append]
    rfl

theorem frame (h : Registered purpose consistent orders batch) :
    batch.purpose = purpose ∧ batch.fault? = none ∧
      batch.tables.map Table.name = orders.map Order.table := by
  obtain ⟨hpurpose, hfault, hfaces⟩ := h.frame_faces
  have hnames := congrArg (List.map Prod.fst) hfaces
  rw [List.map_map, List.map_map] at hnames
  exact ⟨hpurpose, hfault, hnames⟩

/-- A batch of orders is the same without a reason why it cannot run. -/
theorem withoutFault (h : Registered purpose consistent orders batch) :
    { batch with fault? := none } = batch := by
  rw [← h.frame.2.1]

/-- What an order is registered with when the others are. -/
theorem register_eq (h : Registered purpose consistent orders batch) {order : Order}
    (hname : ∀ other ∈ orders, other.table ≠ order.table) :
    order.table ∉ batch.tables.map Table.name ∧
      batch.register order.cache order.table order.type order.items =
        (batch.openTable order.table order.type order.items).addItems order.cache
          batch.tables.length order.table order.type 0 order.items := by
  have hnew : order.table ∉ batch.tables.map Table.name := by simpa [h.frame.2.2] using hname
  exact ⟨hnew, Batch.register_eq h.frame.2.1 hnew order.cache order.type order.items⟩

/-- Whatever orders are registered, the slots are in step with their filings. -/
theorem filed (h : Registered purpose consistent orders batch) :
    Filed batch (allFilings purpose orders) := by
  induction h with
  | empty =>
    show Filed _ []
    exact ⟨List.nodup_nil, rfl, rfl, List.Perm.nil, List.nodup_nil, by simp, by simp, by simp,
      by simp⟩
  | @snoc orders batch h order hname ih =>
    obtain ⟨hnew, heq⟩ := h.register_eq hname
    rw [heq, allFilings_append, Order.filings, ← h.frame.1]
    rw [← h.frame.1] at ih
    refine (ih.openTable hnew order.type order.items).addItems ?_ order.cache order.type 0
      order.items
    rw [openTable_names, List.getElem?_append_right (by simp)]
    simp

/-- The items of an order that have no key are reported, and no others. -/
theorem get?_report (h : Registered purpose consistent orders batch) (table : String)
    (position : Nat) :
    batch.report.get? table position =
      (orders.find? fun order => order.table = table).bind fun order =>
        order.errorAt? purpose position := by
  induction h with
  | empty => rfl
  | @snoc orders batch h order hname ih =>
    have hreport : (batch.openTable order.table order.type order.items).report = batch.report := rfl
    have hpurpose : (batch.openTable order.table order.type order.items).purpose = purpose :=
      h.frame.1
    rw [(h.register_eq hname).2, get?_report_addItems, hreport, hpurpose, ih, List.find?_append]
    by_cases htable : order.table = table
    · subst htable
      have hnone : orders.find? (fun other => other.table = order.table) = none := by
        simpa [List.find?_eq_none] using hname
      simp [hnone, Order.errorAt?]
    · rw [if_neg fun hand => htable hand.1.symm]
      simp [htable]

/-- What is reported for an item of an order is why it has no key. -/
theorem get?_report_of_mem (h : Registered purpose consistent orders batch) {order : Order}
    (horder : order ∈ orders) (position : Nat) :
    batch.report.get? order.table position = order.errorAt? purpose position := by
  rw [h.get?_report]
  cases hfound : orders.find? fun other => other.table = order.table with
  | none => simpa using List.find?_eq_none.mp hfound order horder
  | some other =>
    have hname : other.table = order.table := by simpa using List.find?_some hfound
    obtain rfl := List.inj_on_of_nodup_map h.names_nodup (List.mem_of_find?_eq_some hfound) horder
      hname
    rfl

/-- An item that has a key is not reported. -/
theorem get?_report_of_entryAt? (h : Registered purpose consistent orders batch) {order : Order}
    (horder : order ∈ orders) {position : Nat} {entry : Entry}
    (hentry : order.entryAt? purpose position = some entry) :
    batch.report.get? order.table position = none := by
  rw [h.get?_report_of_mem horder]
  exact Order.errorAt?_of_entryAt? hentry

/-- A filing of the table of an order is an item of the order that has a key. -/
theorem mem_allFilings (h : Registered purpose consistent orders batch) {order : Order}
    (horder : order ∈ orders) {filing : Filing} (htable : filing.table = order.table) :
    filing ∈ allFilings purpose orders ↔
      order.entryAt? purpose filing.position = some filing.entry := by
  simp only [allFilings, List.mem_flatMap, Order.mem_filings]
  constructor
  · rintro ⟨other, hother, hsame, hentry⟩
    obtain rfl : other = order :=
      List.inj_on_of_nodup_map h.names_nodup hother horder (hsame.symm.trans htable)
    exact hentry
  · intro hentry
    exact ⟨order, horder, htable, hentry⟩

/-- The filings that are all of the table of an order are filings of the order. -/
theorem filter_allFilings (h : Registered purpose consistent orders batch) {order : Order}
    (horder : order ∈ orders) {chosen : Filing → Bool}
    (hchosen : ∀ filing, chosen filing = true → filing.table = order.table) :
    (allFilings purpose orders).filter chosen = (order.filings purpose).filter chosen := by
  obtain ⟨before, after, rfl⟩ := List.append_of_mem horder
  have hnone : ∀ others : List Order, (∀ other ∈ others, other.table ≠ order.table) →
      (allFilings purpose others).filter chosen = [] := by
    intro others hothers
    refine List.filter_eq_nil_iff.mpr fun filing hfiling hmem => ?_
    obtain ⟨other, hother, hfiled⟩ := List.mem_flatMap.mp hfiling
    exact hothers other hother ((Order.mem_filings.mp hfiled).1.symm.trans (hchosen filing hmem))
  have hnames := h.names_nodup
  rw [List.map_append, List.map_cons] at hnames
  obtain ⟨-, hafter, hdisjoint⟩ := List.nodup_append.mp hnames
  have hsplit : allFilings purpose (before ++ order :: after) =
      allFilings purpose before ++ (order.filings purpose ++ allFilings purpose after) := by
    rw [allFilings, List.flatMap_append, List.flatMap_cons]
    rfl
  rw [hsplit, List.filter_append, List.filter_append, hnone before, hnone after, List.nil_append,
    List.append_nil]
  · intro other hother hsame
    exact (List.nodup_cons.mp hafter).1 (hsame ▸ List.mem_map_of_mem hother)
  · intro other hother
    exact hdisjoint _ (List.mem_map_of_mem hother) _ List.mem_cons_self

/-- An item is filed once. -/
theorem eq_of_mem_allFilings (h : Registered purpose consistent orders batch)
    {filing other : Filing} (hfiling : filing ∈ allFilings purpose orders)
    (hother : other ∈ allFilings purpose orders) (htable : filing.table = other.table)
    (hposition : filing.position = other.position) : filing = other := by
  obtain ⟨order, horder, hmem⟩ := List.mem_flatMap.mp hfiling
  obtain ⟨hname, hentry⟩ := Order.mem_filings.mp hmem
  have hsame := (h.mem_allFilings horder (htable.symm.trans hname)).mp hother
  rw [← hposition, hentry] at hsame
  obtain ⟨table, position, entry⟩ := filing
  obtain ⟨table', position', entry'⟩ := other
  simp only [Option.some.injEq] at htable hposition hsame
  rw [htable, hposition, hsame]

theorem sorted_report (h : Registered purpose consistent orders batch) :
    batch.report.Sorted := by
  induction h with
  | empty => exact ⟨Dict.sorted_nil, fun _ hentry => absurd hentry List.not_mem_nil⟩
  | @snoc orders batch h order hname ih =>
    rw [(h.register_eq hname).2]
    exact (recorded_addItems (batch.openTable order.table order.type order.items) ..).sorted ih

end Registered

/-- The batch that some orders are registered for, one after the other. -/
def ofOrders (purpose : Purpose) (consistent : Bool) (orders : List Order) : Batch :=
  orders.foldl (fun batch order =>
    (batch.register order.cache order.table order.type order.items).1) { purpose, consistent }

/-- A batch holds the orders up to the first one of a table that was registered before; from then on
    it cannot run. -/
theorem exists_registered (purpose : Purpose) (consistent : Bool) (orders : List Order) :
    ∃ accepted registered fault?, accepted <+: orders ∧
      Registered purpose consistent accepted registered ∧
      ofOrders purpose consistent orders = { registered with fault? } ∧
      ((orders.map Order.table).Nodup ∧ accepted = orders ∧ fault? = none ∨
        ¬ (orders.map Order.table).Nodup ∧ ∃ table, fault? = some (.duplicateTable table)) := by
  induction orders using List.reverseRecOn with
  | nil =>
    exact ⟨[], _, none, List.nil_prefix, .empty, rfl, Or.inl ⟨List.nodup_nil, rfl, rfl⟩⟩
  | append_singleton orders order ih =>
    have hlast : ofOrders purpose consistent (orders ++ [order]) =
        ((ofOrders purpose consistent orders).register order.cache order.table order.type
          order.items).1 := by
      rw [ofOrders, List.foldl_append]
      rfl
    obtain ⟨accepted, registered, fault?, hfirst, hregistered, heq, hcases⟩ := ih
    rw [hlast, heq, List.map_append, List.map_singleton, List.nodup_append_comm,
      List.singleton_append, List.nodup_cons]
    have hlonger : accepted <+: orders ++ [order] := hfirst.trans (List.prefix_append _ _)
    rcases hcases with ⟨hnodup, rfl, rfl⟩ | ⟨hnodup, table, rfl⟩
    · obtain ⟨-, hfault, hnames⟩ := hregistered.frame
      by_cases hmem : order.table ∈ accepted.map Order.table
      · obtain ⟨found, hfound, hname⟩ := List.mem_map.mp (hnames ▸ hmem)
        have hsome : (registered.findTable? order.table).isSome := by
          rw [findTable?, List.find?_isSome]
          exact ⟨found, hfound, by simpa using hname⟩
        refine ⟨accepted, registered, some (.duplicateTable order.table), hlonger, hregistered, ?_,
          Or.inr ⟨fun h => h.1 hmem, order.table, rfl⟩⟩
        rw [hregistered.withoutFault]
        simp [register, hfault, hsome]
      · have hnew : ∀ other ∈ accepted, other.table ≠ order.table := fun other hother hsame =>
          hmem (hsame ▸ List.mem_map_of_mem hother)
        have hsnoc := hregistered.snoc order hnew
        refine ⟨accepted ++ [order], _, none, List.prefix_refl _, hsnoc, ?_,
          Or.inl ⟨⟨hmem, hnodup⟩, rfl, rfl⟩⟩
        rw [hregistered.withoutFault, hsnoc.withoutFault]
    · exact ⟨accepted, registered, some (.duplicateTable table), hlonger, hregistered, rfl,
        Or.inr ⟨fun h => hnodup h.2, table, rfl⟩⟩

/-- A batch holds the orders that it was made of, or a table was registered twice. -/
theorem ofOrders_cases (purpose : Purpose) (consistent : Bool) (orders : List Order) :
    (orders.map Order.table).Nodup ∧
        Registered purpose consistent orders (ofOrders purpose consistent orders) ∨
      ¬ (orders.map Order.table).Nodup ∧
        ∃ table, (ofOrders purpose consistent orders).fault? = some (.duplicateTable table) := by
  obtain ⟨accepted, registered, fault?, -, hregistered, heq, hcases⟩ :=
    exists_registered purpose consistent orders
  rw [heq]
  rcases hcases with ⟨hnodup, rfl, rfl⟩ | ⟨hnodup, table, rfl⟩
  · rw [hregistered.withoutFault]
    exact Or.inl ⟨hnodup, hregistered⟩
  · exact Or.inr ⟨hnodup, table, rfl⟩

end TableClient.Batch
