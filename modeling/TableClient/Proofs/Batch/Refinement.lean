import Mathlib
import TableClient.Proofs.Batch.Stored
import TableClient.Proofs.Client.Put

/-!
# A batch of puts against puts one by one

A batch of puts of types that declare their keys, run against a store that does any part of each
request and echoes the rest, either leaves the row of a key as putting the items one by one would,
and reports none of the items of the key, or leaves the row as it was, and reports each of them with
the number of requests that carried the key.

Results:
* `registered_registerAll`: the orders that a client registers.
* `runBatch_refines_puts`: what a run of the batch leaves in the rows and in the report.
-/

namespace TableClient

/-- A table and its items, of a type that declares a schema. -/
structure DeclaredOrder where
  table : String
  type : ItemType
  schema : ItemSchema
  items : List Json
  declared : type.schema? = some schema
  valid : schema.fault? = none

/-- The item at a position is one that the client accepts to put, and has the given key. -/
def DeclaredOrder.HasKey (order : DeclaredOrder) (client : Client) (position : Nat)
    (key : List (Option Attribute)) : Prop :=
  ∃ item input, order.items[position]? = some item ∧
    client.putInput? order.type order.table item = some input ∧
      order.schema.primary.values input.item = key

/-- Registers orders for a batch, one after the other. -/
def Client.registerAll (client : Client) (batch : Batch) : List DeclaredOrder → Batch × Client
  | [] => (batch, client)
  | order :: orders =>
    let (batch, client) := client.register batch order.table order.type order.items
    client.registerAll batch orders

/-! ## Registered orders -/

namespace Batch

/-- A registered order has the items of a declared one, and a cache that agrees with its type. -/
structure Order.Matches (order : Order) (declared : DeclaredOrder) : Prop where
  table : order.table = declared.table
  type : order.type = declared.type
  items : order.items = declared.items
  agrees : order.cache.Agrees declared.type

section Matches

variable {order : Order} {declared : DeclaredOrder} {client : Client} {layouts : String → KeyLayout}

theorem Order.Matches.layout_eq (h : order.Matches declared) {purpose : Purpose} {position : Nat}
    {entry : Entry} (hentry : order.entryAt? purpose position = some entry) :
    entry.layout = declared.schema.primary := by
  obtain ⟨item, -, hok⟩ := Order.entryAt?_eq_some_iff.mp hentry
  rw [h.type] at hok
  exact layout_of_declared declared.declared declared.valid h.agrees hok

/-- An item is registered with the same entry whatever cache agrees with its type. -/
theorem Order.Matches.entryOf_eq (h : order.Matches declared)
    (hagrees : client.cache.Agrees declared.type) (item : Json) :
    (entryOf .put client.cache declared.type item).1 =
      (entryOf .put order.cache declared.type item).1 :=
  entryOf_declared declared.declared declared.valid hagrees h.agrees item

/-- The items that a client accepts to put are those that a batch files, with the same key. -/
theorem Order.Matches.hasKey_iff (h : order.Matches declared)
    (hagrees : client.cache.Agrees declared.type) {position : Nat}
    {key : List (Option Attribute)} :
    declared.HasKey client position key ↔ ∃ entry, order.entryAt? .put position = some entry ∧
      declared.schema.primary.values entry.payload = key := by
  simp only [DeclaredOrder.HasKey, Client.putInput?_eq, h.entryOf_eq hagrees, Order.entryAt?,
    h.items, h.type, Option.bind_eq_some_iff]
  constructor
  · rintro ⟨item, input, hitem, hinput, hkey⟩
    obtain ⟨entry, hentry, rfl⟩ := Option.map_eq_some_iff.mp hinput
    exact ⟨entry, ⟨item, hitem, hentry⟩, hkey⟩
  · rintro ⟨entry, ⟨item, hitem, hentry⟩, hkey⟩
    refine ⟨item, ⟨declared.table, entry.payload⟩, hitem, ?_, hkey⟩
    rw [hentry, Option.map_some]

/-- The filings of an order do not depend on the cache it is registered with. -/
theorem Order.Matches.filings_eq (h : order.Matches declared)
    (hagrees : client.cache.Agrees declared.type) :
    order.filings .put =
      Batch.filings .put client.cache declared.table declared.type 0 declared.items := by
  simp only [Order.filings, Batch.filings, h.entryOf_eq hagrees, h.table, h.type, h.items]

end Matches

theorem agrees_register {cache : SchemaCache} {type other : ItemType} (h : cache.Agrees type)
    (hsame : other.name = type.name → other.schema? = type.schema?) (batch : Batch) (name : String)
    (items : List Json) : (batch.register cache name other items).2.Agrees type := by
  unfold register
  split_ifs
  · exact h
  · exact h
  · exact agrees_addItems h hsame _ _ _ _ _

/-- A client registers an order for each declared one, whether the batch can run or not. -/
theorem exists_registerAll_eq (client : Client) (batch : Batch) (declared : List DeclaredOrder) :
    ∃ orders : List Order, orders.map Order.table = declared.map DeclaredOrder.table ∧
      (client.registerAll batch declared).1 = orders.foldl (fun batch order =>
        (batch.register order.cache order.table order.type order.items).1) batch := by
  induction declared generalizing client batch with
  | nil => exact ⟨[], rfl, rfl⟩
  | cons first declared ih =>
    obtain ⟨orders, htables, heq⟩ :=
      ih (client.register batch first.table first.type first.items).2
        (client.register batch first.table first.type first.items).1
    refine ⟨⟨first.table, first.type, first.items, client.cache⟩ :: orders, ?_, heq⟩
    rw [List.map_cons, htables]
    rfl

/-- A client registers an order for each declared one, and no others. -/
theorem registered_registerAll {client : Client} {batch : Batch} {purpose : Purpose}
    {consistent : Bool} {done : List Order} (h : Registered purpose consistent done batch)
    {declared : List DeclaredOrder}
    (htables : (done.map Order.table ++ declared.map DeclaredOrder.table).Nodup)
    (htypes : ∀ a ∈ declared, ∀ b ∈ declared, a.type.name = b.type.name →
      a.type.schema? = b.type.schema?)
    (hagrees : ∀ order ∈ declared, client.cache.Agrees order.type) :
    ∃ orders, Registered purpose consistent (done ++ orders)
        (client.registerAll batch declared).1 ∧
      (∀ order ∈ orders, ∃ other ∈ declared, order.Matches other) ∧
      ∀ other ∈ declared, ∃ order ∈ orders, order.Matches other := by
  induction declared generalizing client batch done with
  | nil => exact ⟨[], by simpa [Client.registerAll] using h, by simp, by simp⟩
  | cons first declared ih =>
    let order : Order := ⟨first.table, first.type, first.items, client.cache⟩
    have hmatches : order.Matches first :=
      ⟨rfl, rfl, rfl, hagrees first List.mem_cons_self⟩
    have hname : ∀ other ∈ done, other.table ≠ order.table := by
      intro other hother hsame
      exact (List.nodup_append.mp htables).2.2 _ (List.mem_map_of_mem hother) _
        List.mem_cons_self hsame
    have hrest : ∀ other ∈ declared,
        (client.register batch first.table first.type first.items).2.cache.Agrees other.type := by
      intro other hother
      refine agrees_register (hagrees other (List.mem_cons_of_mem _ hother)) ?_ _ _ _
      exact htypes first List.mem_cons_self other (List.mem_cons_of_mem _ hother)
    have hdistinct : ((done ++ [order]).map Order.table ++
        declared.map DeclaredOrder.table).Nodup := by simpa [order] using htables
    have hsameTypes : ∀ a ∈ declared, ∀ b ∈ declared, a.type.name = b.type.name →
        a.type.schema? = b.type.schema? := fun a ha b hb =>
      htypes a (List.mem_cons_of_mem _ ha) b (List.mem_cons_of_mem _ hb)
    obtain ⟨orders, hregistered, hfrom, hto⟩ := ih (h.snoc order hname) hdistinct hsameTypes hrest
    rw [List.append_assoc] at hregistered
    refine ⟨order :: orders, hregistered, ?_, ?_⟩
    · intro other hother
      rcases List.mem_cons.mp hother with rfl | hmem
      · exact ⟨first, List.mem_cons_self, hmatches⟩
      · obtain ⟨found, hfound, hsame⟩ := hfrom other hmem
        exact ⟨found, List.mem_cons_of_mem _ hfound, hsame⟩
    · intro other hother
      rcases List.mem_cons.mp hother with rfl | hmem
      · exact ⟨order, List.mem_cons_self, hmatches⟩
      · obtain ⟨found, hfound, hsame⟩ := hto other hmem
        exact ⟨found, List.mem_cons_of_mem _ hfound, hsame⟩

/-! ## Slots of declared orders -/

/-- The row that a filed item is put to. -/
def Filing.row (layouts : String → KeyLayout) (filing : Filing) : Row :=
  rowOf layouts (filing.table, .put filing.entry.payload)

section Declared

variable {layouts : String → KeyLayout} {purpose : Purpose} {consistent : Bool}
  {orders : List Order} {declared : List DeclaredOrder} {start : Batch}

/-- Every filed item has the layout of its table. -/
theorem layout_of_mem_allFilings
    (hfrom : ∀ order ∈ orders, ∃ other ∈ declared, order.Matches other)
    (hlayouts : ∀ other ∈ declared, layouts other.table = other.schema.primary) {filing : Filing}
    (hfiling : filing ∈ allFilings purpose orders) :
    filing.entry.layout = layouts filing.table := by
  obtain ⟨order, horder, hmem⟩ := List.mem_flatMap.mp hfiling
  obtain ⟨htable, hentry⟩ := Order.mem_filings.mp hmem
  obtain ⟨other, hother, hmatches⟩ := hfrom order horder
  rw [hmatches.layout_eq hentry, htable, hmatches.table, hlayouts other hother]

theorem laidOut_of_matches (h : Registered purpose consistent orders start)
    (hfrom : ∀ order ∈ orders, ∃ other ∈ declared, order.Matches other)
    (hlayouts : ∀ other ∈ declared, layouts other.table = other.schema.primary) :
    LaidOut layouts start := by
  intro table htable layout hlayout
  obtain ⟨filing, hfiling, hname, rfl⟩ := h.filed.layouts table htable layout hlayout
  rw [layout_of_mem_allFilings hfrom hlayouts hfiling, hname]

/-- An item is in a slot exactly if it is put to the row of the slot. -/
theorem key_eq_iff_row_eq (h : Registered .put consistent orders start)
    (hfrom : ∀ order ∈ orders, ∃ other ∈ declared, order.Matches other)
    (hlayouts : ∀ other ∈ declared, layouts other.table = other.schema.primary) {filing : Filing}
    (hfiling : filing ∈ allFilings .put orders) {slot : Slot} (hslot : slot ∈ start.slots) :
    filing.key = slot.key ↔ filing.row layouts = start.rowFor layouts slot := by
  have hlayout := layout_of_mem_allFilings hfrom hlayouts hfiling
  rw [Filing.key, h.sound.key_eq (laidOut_of_matches h hfrom hlayouts) hslot,
    KeyLayout.identity_inj, ← values_payload_of_mem_allFilings hfiling, hlayout, Filing.row, rowOf,
    rowFor_eq, Prod.mk.injEq]
  rfl

/-- A slot holds the item that putting the items of its table one by one leaves in its row. -/
theorem putEach_rowFor (h : Registered .put consistent orders start)
    (hfrom : ∀ order ∈ orders, ∃ other ∈ declared, order.Matches other)
    (hlayouts : ∀ other ∈ declared, layouts other.table = other.schema.primary)
    {order : Order} (horder : order ∈ orders) {other : DeclaredOrder}
    (hmatches : order.Matches other) {client : Client} (hagrees : client.cache.Agrees other.type)
    {slot : Slot} (hslot : slot ∈ start.slots) (htable : start.tableName slot.table = other.table)
    (rows : Rows) :
    client.putEach layouts other.type other.table rows other.items (start.rowFor layouts slot) =
      some slot.payload := by
  have hrow : ∀ filing ∈ order.filings .put,
      decide (rowOf layouts (other.table, .put filing.entry.payload) = start.rowFor layouts slot) =
        decide (filing.row layouts = start.rowFor layouts slot) := by
    intro filing hfiling
    rw [Filing.row, (Order.mem_filings.mp hfiling).1, hmatches.table]
  have hchosen : ∀ filing : Filing,
      decide (filing.row layouts = start.rowFor layouts slot) = true →
        filing.table = order.table := by
    intro filing hmem
    have := congrArg Prod.fst (of_decide_eq_true hmem)
    rw [rowFor_eq] at this
    exact this.trans (htable.trans hmatches.table.symm)
  have hfiled : filedUnder (allFilings .put orders) slot.key =
      (order.filings .put).filter fun filing =>
        filing.row layouts = start.rowFor layouts slot := by
    rw [← h.filter_allFilings horder hchosen, filedUnder]
    refine List.filter_congr fun filing hfiling => ?_
    simp only [key_eq_iff_row_eq h hfrom hlayouts hfiling hslot]
  have hpayload := (h.filed.holds slot hslot).payload
  rw [Client.putEach_eq layouts client other.type other.table rows 0 other.items,
    ← hmatches.filings_eq hagrees, List.filter_congr hrow, ← hfiled, hpayload]
  rfl

/-- The items that a client accepts to put to a row are the items of the slot of the row. -/
theorem hasKey_iff_filed (h : Registered .put consistent orders start)
    (hlayouts : ∀ other ∈ declared, layouts other.table = other.schema.primary)
    {order : Order} (horder : order ∈ orders) {other : DeclaredOrder} (hother : other ∈ declared)
    (hmatches : order.Matches other) {client : Client} (hagrees : client.cache.Agrees other.type)
    {position : Nat} {key : List (Option Attribute)} :
    other.HasKey client position key ↔ ∃ filing ∈ allFilings .put orders,
      filing.position = position ∧ filing.row layouts = (other.table, key) := by
  rw [hmatches.hasKey_iff hagrees]
  constructor
  · rintro ⟨entry, hentry, rfl⟩
    refine ⟨⟨order.table, position, entry⟩, (h.mem_allFilings horder rfl).mpr hentry, rfl, ?_⟩
    rw [Filing.row, rowOf, hmatches.table, hlayouts other hother]
    rfl
  · rintro ⟨filing, hfiling, rfl, hrow⟩
    have htable : filing.table = other.table := congrArg Prod.fst hrow
    have hkey : (layouts filing.table).values filing.entry.payload = key := congrArg Prod.snd hrow
    have hname : filing.table = order.table := htable.trans hmatches.table.symm
    refine ⟨filing.entry, (h.mem_allFilings horder hname).mp hfiling, ?_⟩
    rw [← hkey, htable, hlayouts other hother]

end Declared

end Batch

/-! ## Runs -/

open Batch in
/-- A batch of puts of declared types, run to an end that is no failure of a request, against a
    store that does any part of each request and echoes the rest: the row of the key of an accepted
    item is left as putting the items of its table one by one leaves it, and no item with the key
    is reported, or the row is left as it was, and every item with the key is reported with the
    number of requests that carried the key. All other rows are left as they were, and the batch
    succeeds exactly if it reports nothing. Types of one name are one type, and the cache of the
    client keeps what they declare, as every cache does that only they were looked up in. -/
theorem runBatch_refines_puts (client : Client) (layouts : String → KeyLayout)
    (orders : List DeclaredOrder) (htables : (orders.map DeclaredOrder.table).Nodup)
    (htypes : ∀ a ∈ orders, ∀ b ∈ orders, a.type.name = b.type.name →
      a.type.schema? = b.type.schema?)
    (hcache : ∀ order ∈ orders, client.cache.Agrees order.type)
    (hlayouts : ∀ order ∈ orders, layouts order.table = order.schema.primary)
    {rows rows' : Rows} {requests : List Request} {outcome : Except Error Unit} {after : Batch}
    (hrun : Run (Rows.Serves layouts) client.runBatch
      ⟨(client.registerAll (Client.batch .put false) orders).1, 0⟩ rows requests (outcome, after)
      rows')
    (houtcome : ∀ activity cause, outcome ≠ .error (.transport activity cause)) :
    (∀ order ∈ orders, ∀ key, (∃ position, order.HasKey client position key) →
      (rows' (order.table, key) =
          client.putEach layouts order.type order.table rows order.items (order.table, key) ∧
        ∀ position, order.HasKey client position key →
          after.report.get? order.table position = none) ∨
      (rows' (order.table, key) = rows (order.table, key) ∧
        ∀ position, order.HasKey client position key →
          after.report.get? order.table position =
            some (.unprocessed (requests.countP (·.carries layouts (order.table, key)))))) ∧
    (∀ table key, (∀ order ∈ orders, order.table = table →
        ∀ position, ¬ order.HasKey client position key) →
      rows' (table, key) = rows (table, key)) ∧
    (outcome = .ok () ↔ ∀ table position, after.report.get? table position = none) ∧
    (outcome = .ok () ∨ outcome = .error (.batch after.report)) := by
  have hempty : Registered .put false [] (Client.batch .put false) := .empty
  obtain ⟨registered, hstart, hfrom, hto⟩ :=
    registered_registerAll hempty (by simpa using htables) htypes hcache
  rw [List.nil_append] at hstart
  generalize (client.registerAll (Client.batch .put false) orders).1 = start at hrun hstart
  have hlaid := laidOut_of_matches hstart hfrom hlayouts
  obtain ⟨last, hstored, hfinish⟩ := stored_of_run hstart hlaid hrun houtcome
  obtain rfl : last.finish.1 = outcome := congrArg Prod.fst hfinish
  obtain rfl : last.finish.2 = after := congrArg Prod.snd hfinish
  refine ⟨?_, ?_, ?_⟩
  · rintro order horder key ⟨first, hfirst⟩
    obtain ⟨order', horder', hmatches⟩ := hto order horder
    have hkey := @hasKey_iff_filed layouts false registered orders start hstart hlayouts order'
      horder' order horder hmatches client (hcache order horder)
    obtain ⟨filing, hfiling, -, hrow⟩ := hkey.mp hfirst
    obtain ⟨slot, hslot, hslotKey⟩ := hstart.filed.covers filing hfiling
    have hslotRow : start.rowFor layouts slot = (order.table, key) :=
      ((key_eq_iff_row_eq hstart hfrom hlayouts hfiling hslot).mp hslotKey.symm).symm.trans hrow
    have htable : start.tableName slot.table = order.table := by
      rw [rowFor_eq] at hslotRow
      exact congrArg Prod.fst hslotRow
    have hposition : ∀ position, order.HasKey client position key → position ∈ slot.positions := by
      intro position hhas
      obtain ⟨other, hother, hplace, hotherRow⟩ := hkey.mp hhas
      refine (hstart.filed.holds slot hslot).mem_positions.mpr ⟨other, hother, ?_, hplace⟩
      exact (key_eq_iff_row_eq hstart hfrom hlayouts hother hslot).mpr
        (hotherRow.trans hslotRow.symm)
    obtain ⟨id, hid⟩ := List.mem_iff_getElem?.mp hslot
    have hend := hstored.finish_slot hstart hid
    rw [hslotRow, htable] at hend
    rcases hend with ⟨hnow, hreport⟩ | ⟨hnow, hreport⟩
    · left
      have hputs := putEach_rowFor hstart hfrom hlayouts horder' hmatches (hcache order horder)
        hslot htable rows
      rw [hslotRow] at hputs
      refine ⟨hnow.trans hputs.symm, fun position hhas => ?_⟩
      obtain ⟨entry, hentry, -⟩ := (hmatches.hasKey_iff (hcache order horder)).mp hhas
      rw [hreport position (hposition position hhas), ← hmatches.table]
      exact hstart.get?_report_of_entryAt? horder' hentry
    · right
      exact ⟨hnow, fun position hhas => hreport position (hposition position hhas)⟩
  · intro table key hnone
    refine hstored.others (table, key) fun slot hslot hslotRow => ?_
    obtain ⟨filing, hfiling, hfilingKey⟩ := (hstart.filed.holds slot hslot).exists_filing
    have hfilingRow := (key_eq_iff_row_eq hstart hfrom hlayouts hfiling hslot).mp hfilingKey
    have hrow := hfilingRow.trans hslotRow
    obtain ⟨order', horder', hmem⟩ := List.mem_flatMap.mp hfiling
    obtain ⟨order, horder, hmatches⟩ := hfrom order' horder'
    have htable : order.table = table := by
      rw [← hmatches.table, ← (Order.mem_filings.mp hmem).1]
      exact congrArg Prod.fst hrow
    refine hnone order horder htable filing.position ?_
    refine (hasKey_iff_filed hstart hlayouts horder' horder hmatches (hcache order horder)).mpr ?_
    exact ⟨filing, hfiling, rfl, htable ▸ hrow⟩
  · refine finish_outcome ?_
    rw [hstored.report]
    exact hstart.sorted_report

/-- Two items of one table with the same key. -/
def twoVersions : DeclaredOrder where
  table := "T"
  type := ⟨"item", some { primary := .ofHash "id" }, some⟩
  schema := { primary := .ofHash "id" }
  items := [.object [("id", .string "x")], .object [("id", .string "x"), ("n", .string "2")]]
  declared := rfl
  valid := by decide

/-- The batch that puts the two items. -/
def twoVersionsBatch : Batch :=
  (Client.registerAll {} (Client.batch .put false) [twoVersions]).1

/-- The second of the two items is sent and stored, and neither is reported. -/
theorem runBatch_twoVersions :
    let layouts : String → KeyLayout := fun _ => .ofHash "id"
    let version : AttributeMap := [("id", .string "x"), ("n", .string "2")]
    ∃ after rows',
      Run (Rows.Serves layouts) (Client.runBatch {}) ⟨twoVersionsBatch, 0⟩ (fun _ => none)
        [.batchWrite ⟨[("T", [.put version])]⟩] (.ok (), after) rows' ∧
      rows' ("T", [some (.string "x")]) = some version ∧
      after.report.get? "T" 0 = none ∧ after.report.get? "T" 1 = none := by
  intro layouts version
  have hserves : Rows.Serves layouts (fun _ => none) (.batchWrite ⟨[("T", [.put version])]⟩)
      (.ok (.object [])) (Rows.writeAll layouts (fun _ => none) [("T", .put version)]) :=
    @Rows.Serves.wrote layouts _ _ _ {} [("T", .put version)] rfl (List.Perm.refl _)
  obtain ⟨after, hrun⟩ : ∃ after, Run (Rows.Serves layouts) (Client.runBatch {})
      ⟨twoVersionsBatch, 0⟩ (fun _ => none) [.batchWrite ⟨[("T", [.put version])]⟩]
      (.ok (), after) (Rows.writeAll layouts (fun _ => none) [("T", .put version)]) :=
    ⟨_, .turn (.answered rfl hserves) rfl (.last (.silent rfl))⟩
  have hresult := runBatch_refines_puts {} layouts [twoVersions] (by decide) (by decide)
    (fun _ _ schema h => by cases h) (by decide) hrun (fun _ _ h => by cases h)
  have hkey : twoVersions.HasKey {} 0 [some (.string "x")] := ⟨_, _, rfl, rfl, rfl⟩
  have hclean := hresult.2.2.1.mp rfl
  refine ⟨after, _, hrun, ?_, hclean "T" 0, hclean "T" 1⟩
  rcases hresult.1 twoVersions (by simp) _ ⟨0, hkey⟩ with ⟨hstored, -⟩ | ⟨-, hreported⟩
  · exact hstored
  · have := hreported 0 hkey
    rw [hclean] at this
    cases this

end TableClient
