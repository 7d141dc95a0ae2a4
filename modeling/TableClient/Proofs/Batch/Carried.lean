import Mathlib
import TableClient.Proofs.Batch.Course
import TableClient.Proofs.Batch.Dedup

/-!
# What requests carry

A request has one entry for each slot of its round: the table of the slot and what is sent of it.
The entries of different slots are different, because what is sent of an item gives its key: items
of one layout by their values for it, and items that are keyed by all their attributes by all of
them.

Results:
* `entries_requestFor_perm`: the entries of a request are those of the slots of its round.
* `Registered.sentApart`, `Sound.sentApart`: different slots are sent as different entries.
* `Course.carries_iff`: a request carries a slot exactly if it is a slot of the round.
-/

namespace TableClient

open Protocol (Write)

/-- What a request of a batch asks for, by table: the items to store, or the keys to delete or to
    look for. -/
def Request.entries : Request → List (String × AttributeMap)
  | .batchWrite input => (Dict.entries input.tables).map fun entry => (entry.1, entry.2.attributes)
  | .batchGet input => Dict.entries (input.tables.map fun entry => (entry.1, entry.2.keys))
  | _ => []

instance (entry : String × AttributeMap) (entries : List (String × AttributeMap)) :
    Decidable (entry ∈ entries) := inferInstance

namespace Batch

/-! ## Entries -/

/-- What a slot is sent as: its table and what is sent of it. -/
def sentAs (batch : Batch) (slot : Slot) : String × AttributeMap :=
  (batch.tableName slot.table, slot.payload)

/-- Whether a request has an entry for a slot. -/
def carries (batch : Batch) (id : Nat) (request : Request) : Bool :=
  (batch.slots[id]?).any fun slot => batch.sentAs slot ∈ request.entries

theorem carries_eq_true_iff {batch : Batch} {id : Nat} {request : Request} :
    batch.carries id request = true ↔
      ∃ slot, batch.slots[id]? = some slot ∧ batch.sentAs slot ∈ request.entries := by
  simp [carries, Option.any_eq_true]

theorem entries_getInput_perm (batch : Batch) (round : List Nat) :
    (Request.batchGet (batch.getInput round)).entries.Perm
      ((batch.slotsOf round).map batch.sentAs) := by
  let keysOf (tables : Dict Protocol.KeySelection) : Dict (List AttributeMap) :=
    tables.map fun entry => (entry.1, entry.2.keys)
  have hkeys : keysOf (batch.getInput round).tables =
      (batch.slotsOf round).foldl (fun tables slot =>
        Dict.insert tables (batch.tableName slot.table)
          ((Dict.get? tables (batch.tableName slot.table)).getD [] ++ [slot.payload])) [] := by
    refine (List.foldl_hom keysOf fun tables slot => ?_).symm
    let name := batch.tableName slot.table
    let selection : Protocol.KeySelection :=
      ⟨((Dict.get? tables name).map Protocol.KeySelection.keys).getD [] ++ [slot.payload],
        batch.consistent⟩
    rw [Dict.get?_map]
    exact Dict.insert_map Protocol.KeySelection.keys tables name selection
  show (Dict.entries (keysOf (batch.getInput round).tables)).Perm _
  rw [hkeys]
  exact Dict.entries_insertEach_perm (batch.slotsOf round) Dict.sorted_nil

/-- The entries of a request are those of the slots of its round. -/
theorem entries_requestFor_perm (batch : Batch) (round : List Nat) :
    (batch.requestFor round).entries.Perm ((batch.slotsOf round).map batch.sentAs) := by
  have hwrite : (Request.batchWrite (batch.writeInput round)).entries.Perm
      ((batch.slotsOf round).map batch.sentAs) := by
    have hperm := (entries_writeInput_perm batch round).map fun entry : String × Write =>
      (entry.1, entry.2.attributes)
    rw [List.map_map] at hperm
    refine hperm.trans (List.Perm.of_eq (List.map_congr_left fun slot _ => ?_))
    exact congrArg (Prod.mk _) (attributes_write batch.purpose slot)
  unfold requestFor
  cases batch.purpose with
  | get => exact entries_getInput_perm batch round
  | put | delete => exact hwrite

/-- What a slot is sent as does not depend on how often it was sent. -/
theorem Keeps.sentAs_eq {before after : Batch} (h : Keeps before after) (id : Nat) :
    (after.slots[id]?).map after.sentAs = (before.slots[id]?).map before.sentAs := by
  have hslots := congrArg (fun slots => (slots[id]?).map before.sentAs) h.slots
  simp only [List.getElem?_map, Option.map_map] at hslots
  have hafter : after.sentAs = before.sentAs ∘ Slot.bare := by
    funext slot
    show (after.tableName slot.table, slot.payload) = (before.tableName slot.table, slot.payload)
    rw [h.tableName]
  rw [hafter]
  exact hslots

/-! ## Different slots -/

/-- No two slots are sent as the same entry. -/
def SentApart (batch : Batch) : Prop :=
  ∀ ⦃i j : Nat⦄ ⦃slot other : Slot⦄, batch.slots[i]? = some slot → batch.slots[j]? = some other →
    batch.sentAs slot = batch.sentAs other → i = j

/-- Where all items of a table have one layout, no two slots are sent as the same entry. -/
theorem Sound.sentApart {layouts : String → KeyLayout} {batch : Batch} {flight : List Nat}
    (h : Sound batch flight) (hlaid : LaidOut layouts batch) : batch.SentApart := by
  intro i j slot other hi hj hsame
  obtain ⟨htable, hpayload⟩ := Prod.mk.inj hsame
  apply eq_of_map_eq h.keys_nodup hi hj
  rw [h.key_eq hlaid (List.mem_of_getElem? hi), h.key_eq hlaid (List.mem_of_getElem? hj), htable,
    hpayload]

section Registered

variable {purpose : Purpose} {consistent : Bool} {orders : List Order} {batch : Batch}

/-- Items of one table with the same key, or of which the same is sent, have one slot. -/
theorem Registered.key_eq_of_entry (h : Registered purpose consistent orders batch)
    (hitems : ∀ order ∈ orders, ∀ item ∈ order.items, item.Canonical) {filing other : Filing}
    (hfiling : filing ∈ allFilings purpose orders) (hother : other ∈ allFilings purpose orders)
    (htable : filing.table = other.table)
    (hsame : filing.entry.key = other.entry.key ∨ filing.entry.payload = other.entry.payload) :
    filing.key = other.key := by
  obtain ⟨order, horder, hmem⟩ := List.mem_flatMap.mp hfiling
  obtain ⟨hname, hentry⟩ := Order.mem_filings.mp hmem
  have hotherEntry := (h.mem_allFilings horder (htable.symm.trans hname)).mp hother
  obtain ⟨item, hitem, hok⟩ := Order.entryAt?_eq_some_iff.mp hentry
  obtain ⟨item', hitem', hok'⟩ := Order.entryAt?_eq_some_iff.mp hotherEntry
  have hnames : filing.entry.layout.names = other.entry.layout.names := by
    rcases @entryOf_cases purpose order.cache order.type with ⟨names, hall⟩ | hall
    · rw [hall item _ hok, hall item' _ hok']
    · obtain ⟨hself, hkeys⟩ :=
        hall item _ (hitems order horder item (List.mem_of_getElem? hitem)) hok
      obtain ⟨hself', hkeys'⟩ :=
        hall item' _ (hitems order horder item' (List.mem_of_getElem? hitem')) hok'
      have hkey : filing.entry.key = other.entry.key := by
        rcases hsame with hkey | hpayload
        · exact hkey
        · rw [← hself, ← hself', hpayload]
      rw [hkeys, hkeys', hkey]
  refine KeyLayout.identity_inj.mpr ⟨htable, ?_⟩
  rcases hsame with hkey | hpayload
  · rw [KeyLayout.values, KeyLayout.values, hnames, hkey]
  · rw [← values_payload_of_mem_allFilings hfiling, ← values_payload_of_mem_allFilings hother,
      KeyLayout.values, KeyLayout.values, hnames, hpayload]

/-- A slot is sent as the last of its items. -/
theorem Registered.exists_sent (h : Registered purpose consistent orders batch) {slot : Slot}
    (hslot : slot ∈ batch.slots) : ∃ filing ∈ allFilings purpose orders,
      filing.key = slot.key ∧ (filing.table, filing.entry.payload) = batch.sentAs slot := by
  have hholds := h.filed.holds slot hslot
  obtain ⟨filing, hlast, hpayload⟩ := Option.map_eq_some_iff.mp hholds.payload
  obtain ⟨hfiling, hkey⟩ := List.mem_filter.mp (List.mem_of_getLast? hlast)
  replace hkey : filing.key = slot.key := by simpa using hkey
  exact ⟨filing, hfiling, hkey, by rw [sentAs, hholds.tableName_eq hfiling hkey, hpayload]⟩

/-- An item that has a key is in the slot of the key. -/
theorem Registered.exists_holdsItem (h : Registered purpose consistent orders batch) {order : Order}
    (horder : order ∈ orders) {position : Nat} {entry : Entry}
    (hentry : order.entryAt? purpose position = some entry) :
    ∃ id slot, batch.slots[id]? = some slot ∧
      slot.key = entry.layout.identity order.table entry.key ∧
      batch.tableName slot.table = order.table ∧
      batch.holdsItem order.table position id = true := by
  have hfiling : (⟨order.table, position, entry⟩ : Filing) ∈ allFilings purpose orders :=
    (h.mem_allFilings horder rfl).mpr hentry
  obtain ⟨slot, hslot, hkey⟩ := h.filed.covers _ hfiling
  obtain ⟨id, hid⟩ := List.mem_iff_getElem?.mp hslot
  have hholds := h.filed.holds slot hslot
  have htable := hholds.tableName_eq hfiling hkey.symm
  refine ⟨id, slot, hid, hkey, htable, holdsItem_iff.mpr ⟨slot, hid, htable, ?_⟩⟩
  exact hholds.mem_positions.mpr ⟨_, hfiling, hkey.symm, rfl⟩

/-- A slot has an item that has its key. -/
theorem Registered.exists_position (h : Registered purpose consistent orders batch) {id : Nat}
    (hid : id < batch.slots.length) : ∃ order ∈ orders, ∃ position entry,
      order.entryAt? purpose position = some entry ∧
        batch.holdsItem order.table position id = true := by
  have hslot := List.getElem?_eq_getElem hid
  have hholds := h.filed.holds _ (List.mem_of_getElem? hslot)
  obtain ⟨filing, hfiling, hkey⟩ := hholds.exists_filing
  obtain ⟨order, horder, hmem⟩ := List.mem_flatMap.mp hfiling
  obtain ⟨hname, hentry⟩ := Order.mem_filings.mp hmem
  refine ⟨order, horder, filing.position, filing.entry, hentry, ?_⟩
  refine holdsItem_iff.mpr ⟨_, hslot, (hholds.tableName_eq hfiling hkey).trans hname, ?_⟩
  exact hholds.mem_positions.mpr ⟨filing, hfiling, hkey, rfl⟩

/-- Whatever items are registered, no two slots are sent as the same entry. -/
theorem Registered.sentApart (h : Registered purpose consistent orders batch)
    (hitems : ∀ order ∈ orders, ∀ item ∈ order.items, item.Canonical) : batch.SentApart := by
  intro i j slot other hi hj hsame
  obtain ⟨filing, hfiling, hkey, hsent⟩ := h.exists_sent (List.mem_of_getElem? hi)
  obtain ⟨filing', hfiling', hkey', hsent'⟩ := h.exists_sent (List.mem_of_getElem? hj)
  obtain ⟨htable, hpayload⟩ := Prod.mk.inj ((hsent.trans hsame).trans hsent'.symm)
  apply eq_of_map_eq h.filed.keys_nodup hi hj
  rw [← hkey, ← hkey']
  exact h.key_eq_of_entry hitems hfiling hfiling' htable (Or.inr hpayload)

end Registered

/-! ## Requests on a course -/

section Course

variable {size : Nat} {start batch : Batch} {exchanges : List (Exchanged Running)}

/-- The entries of a request are those of the slots of its round, as they were at the start. -/
theorem Course.entries_perm (h : Course size start exchanges batch) :
    ((batch.sent size).requestFor (batch.round size)).entries.Perm
      ((batch.round size).filterMap fun id => (start.slots[id]?).map start.sentAs) := by
  refine (entries_requestFor_perm _ _).trans (List.Perm.of_eq ?_)
  rw [slotsOf, List.map_filterMap]
  exact List.filterMap_congr fun id _ => (h.keeps.trans (batch.keeps_sent size)).sentAs_eq id

/-- The slots of a round are there. -/
theorem Course.exists_slot (h : Course size start exchanges batch) (hstart : Sound start [])
    {id : Nat} (hid : id ∈ batch.pending) : ∃ slot, start.slots[id]? = some slot := by
  have hlt := (h.sound hstart).pending_lt id hid
  rw [h.keeps.length_slots] at hlt
  exact ⟨_, List.getElem?_eq_getElem hlt⟩

theorem Course.mem_pending_of_mem_round (h : Course size start exchanges batch)
    (hstart : Sound start []) {id : Nat} (hid : id ∈ batch.round size) : id ∈ batch.pending := by
  rw [← pending_sent batch size]
  exact ((h.sound hstart).sent size).mem_pending_of_mem_flight hid

/-- A request has as many entries as its round has slots. -/
theorem Course.length_entries (h : Course size start exchanges batch) (hstart : Sound start []) :
    ((batch.sent size).requestFor (batch.round size)).entries.length =
      (batch.round size).length := by
  rw [h.entries_perm.length_eq, List.length_filterMap_eq_countP, List.countP_eq_length]
  intro id hid
  obtain ⟨slot, hslot⟩ := h.exists_slot hstart (h.mem_pending_of_mem_round hstart hid)
  simp [hslot]

/-- A request carries a slot exactly if it is a slot of the round. -/
theorem Course.carries_iff (h : Course size start exchanges batch) (hstart : Sound start [])
    (hapart : start.SentApart) (id : Nat) :
    start.carries id ((batch.sent size).requestFor (batch.round size)) = true ↔
      id ∈ batch.round size := by
  rw [carries_eq_true_iff]
  simp only [h.entries_perm.mem_iff, List.mem_filterMap, Option.map_eq_some_iff]
  constructor
  · rintro ⟨slot, hslot, other, hother, own, hown, hsame⟩
    exact hapart hown hslot hsame ▸ hother
  · intro hid
    obtain ⟨slot, hslot⟩ := h.exists_slot hstart (h.mem_pending_of_mem_round hstart hid)
    exact ⟨slot, hslot, id, hid, slot, hslot, rfl⟩

end Course

end Batch

end TableClient
