import Mathlib
import TableClient.Proofs.Batch.Carried
import TableClient.Proofs.Batch.Refinement
import TableClient.Proofs.Batch.Termination

/-!
# What a batch reads

Where all items of a table have one key layout, what a reply brings for a pending slot are the items
under its table that have the values of its key. A slot stays pending until an item is brought for
it or the store has nothing to say of it, so at most one item is delivered for a key, and that item
decides what stands at all positions with the key in the end.

Results:
* `Sound.firstFor?_eq`: the item brought for a slot, read off the reply and the key.
* `Course.delivers?_eq`: what an exchange delivers for a key is brought for its slot in the round.
* `Course.cell_finish_of_held`, `Course.cell_finish_of_unheld`: what stands at a position at the
  end, with the slot of its key or without a slot.
* `Course.cell_finish_eq`: the same for the items of an order.
* `runBatch_reads`: what a client reads, for every script of replies.
-/

namespace TableClient

open Protocol (BatchGetReply)

/-- The first item that a reply brings under a table and that has the values of a key. -/
def Protocol.BatchGetReply.firstUnder? (reply : BatchGetReply) (layout : KeyLayout)
    (table : String) (key : AttributeMap) : Option AttributeMap :=
  ((Dict.entries reply.responses).find? fun entry =>
    entry.1 = table ∧ layout.values entry.2 = layout.values key).map Prod.snd

namespace Batch

/-! ## Items under a table -/

/-- The pending slot that an item under a table belongs to, if it belongs to any. -/
def slotFor? (batch : Batch) (name : String) (item : AttributeMap) : Option Nat :=
  (batch.findTable? name).bind fun table => batch.findSlot? table item

/-- The entries of a reply, each with the slot that it belongs to, if it does to any. -/
theorem brought_eq (batch : Batch) (reply : BatchGetReply) :
    batch.brought reply = (Dict.entries reply.responses).filterMap fun entry =>
      (batch.slotFor? entry.1 entry.2).map fun id => (id, entry.2) := by
  rw [brought, matched, Dict.entries, List.filterMap_flatMap]
  refine List.flatMap_congr fun entry _ => ?_
  rw [List.filterMap_map]
  simp only [Function.comp_def, slotFor?]
  cases batch.findTable? entry.1 with
  | none => simp
  | some table => rfl

/-- The first pair for a key, where the pairs are made of the entries that have a key. -/
theorem find?_pairs {α β γ : Type} [DecidableEq β] (key? : α → Option β) (value : α → γ)
    (entries : List α) (key : β) :
    ((entries.filterMap fun a => (key? a).map fun b => (b, value a)).find? fun pair =>
      pair.1 = key).map Prod.snd = (entries.find? fun a => key? a = some key).map value := by
  induction entries with
  | nil => rfl
  | cons a entries ih =>
    rw [List.filterMap_cons, List.find?_cons]
    cases hkey : key? a with
    | none => simpa using ih
    | some b =>
      by_cases hb : b = key
      · simp [hb]
      · simpa [hb, -List.find?_filterMap] using ih

section Sound

variable {layouts : String → KeyLayout} {batch : Batch} {flight : List Nat} {id : Nat} {slot : Slot}

/-- Where all items of a table have one layout, an item belongs to a pending slot exactly if it
    stands under the table of the slot and has the values of its key. -/
theorem Sound.slotFor?_eq_some_iff (h : Sound batch flight) (hlaid : LaidOut layouts batch)
    (hid : id ∈ batch.pending) (hslot : batch.slots[id]? = some slot) (name : String)
    (item : AttributeMap) :
    batch.slotFor? name item = some id ↔
      name = batch.tableName slot.table ∧
        (layouts (batch.tableName slot.table)).values item =
          (layouts (batch.tableName slot.table)).values slot.payload := by
  have hkey := h.key_eq hlaid (List.mem_of_getElem? hslot)
  constructor
  · intro hfound
    obtain ⟨table, htable, hfound⟩ := Option.bind_eq_some_iff.mp hfound
    have hname : table.name = name := by simpa using List.find?_some htable
    obtain ⟨layout, hlayout, hhit⟩ := List.exists_of_findSome?_eq_some hfound
    obtain ⟨-, own, hown, hownKey⟩ := h.findPending?_eq_some_iff.mp hhit
    obtain rfl : own = slot := Option.some.inj (hown.symm.trans hslot)
    rw [hlaid table (List.mem_of_find?_eq_some htable) layout hlayout, hname, hkey] at hownKey
    obtain ⟨hsame, hvalues⟩ := KeyLayout.identity_inj.mp hownKey
    rw [← hsame] at hvalues
    exact ⟨hsame.symm, hvalues.symm⟩
  · rintro ⟨rfl, hvalues⟩
    obtain ⟨slot', table, hslot', htable⟩ := h.exists_slot hid
    obtain rfl : slot' = slot := Option.some.inj (hslot'.symm.trans hslot)
    have hname : batch.tableName slot'.table = table.name := by rw [tableName, htable]; rfl
    have hhit : ∀ layout ∈ table.layouts,
        batch.findPending? (layout.identity table.name item) = some id := by
      intro layout hlayout
      refine h.findPending?_eq_some_iff.mpr ⟨hid, slot', hslot, ?_⟩
      rw [hkey, hname, hlaid table (List.mem_of_getElem? htable) layout hlayout]
      rw [hname] at hvalues
      exact KeyLayout.identity_inj.mpr ⟨rfl, hvalues.symm⟩
    obtain ⟨layout, hlayout, -⟩ := h.exists_layout (List.mem_of_getElem? hslot) htable
    have hsome : (batch.findSlot? table item).isSome := by
      refine List.findSome?_isSome_iff.mpr ⟨layout, hlayout, ?_⟩
      rw [hhit layout hlayout]
      rfl
    obtain ⟨found, hfound⟩ := Option.isSome_iff_exists.mp hsome
    obtain ⟨layout', hlayout', hfoundHit⟩ := List.exists_of_findSome?_eq_some hfound
    rw [slotFor?, hname, h.findTable?_eq_some htable, Option.bind_some, hfound, ← hfoundHit,
      hhit layout' hlayout']

/-- Where all items of a table have one layout, the first item that is brought for a pending slot is
    the first one under its table with the values of its key. -/
theorem Sound.firstFor?_eq (h : Sound batch flight) (hlaid : LaidOut layouts batch)
    (hid : id ∈ batch.pending) (hslot : batch.slots[id]? = some slot) (reply : BatchGetReply) :
    batch.firstFor? reply id = reply.firstUnder? (layouts (batch.tableName slot.table))
      (batch.tableName slot.table) slot.payload := by
  rw [firstFor?, brought_eq, find?_pairs, Protocol.BatchGetReply.firstUnder?]
  refine congrArg (fun chosen => ((Dict.entries reply.responses).find? chosen).map Prod.snd)
    (funext fun entry => ?_)
  rw [Bool.eq_iff_iff, decide_eq_true_iff, decide_eq_true_iff]
  exact h.slotFor?_eq_some_iff hlaid hid hslot entry.1 entry.2

end Sound

/-! ## Deliveries -/

/-- The item that an exchange delivers for a key of a table: the first one that the reply brings
    under the table and that has the values of the key, if the request carried the key. -/
def delivers? (layout : KeyLayout) (table : String) (key : AttributeMap)
    (exchange : Exchanged Running) : Option AttributeMap :=
  if (table, key) ∈ exchange.request.entries then
    match exchange.reply.as BatchGetReply with
    | .ok reply => reply.firstUnder? layout table key
    | .error _ => none
  else none

/-- The items that the exchanges deliver for a key of a table. -/
def deliveries (layout : KeyLayout) (table : String) (key : AttributeMap)
    (exchanges : List (Exchanged Running)) : List AttributeMap :=
  exchanges.filterMap (delivers? layout table key)

theorem deliveries_snoc (layout : KeyLayout) (table : String) (key : AttributeMap)
    (exchanges : List (Exchanged Running)) (last : Exchanged Running) :
    deliveries layout table key (exchanges ++ [last]) =
      deliveries layout table key exchanges ++ (delivers? layout table key last).toList := by
  rw [deliveries, List.filterMap_append, List.filterMap_cons]
  cases delivers? layout table key last <;> rfl

/-- What stands at a position in the end, by the items that were delivered for its key. -/
def Cell.settle (type : ItemType) (items : List AttributeMap) (old : Cell) : Cell :=
  match items with
  | [] => old.fail .notFound
  | item :: _ => old.receive type item

section Course

variable {layouts : String → KeyLayout} {consistent : Bool} {orders : List Order} {size : Nat}
  {start batch after : Batch} {exchanges : List (Exchanged Running)} {id : Nat} {slot : Slot}
  {table : String} {type : ItemType} {position : Nat}

/-- What is delivered for a slot of a round is the first item that is brought for the slot; nothing
    is delivered for the others. -/
theorem Course.delivers?_eq (h : Course size start exchanges batch) (hstart : Sound start [])
    (hlaid : LaidOut layouts start) (hslot : start.slots[id]? = some slot) (stalled pause : Nat)
    {reply : Reply} {answer : BatchGetReply} (hanswer : reply.as BatchGetReply = .ok answer) :
    delivers? (layouts (start.tableName slot.table)) (start.tableName slot.table) slot.payload
      ⟨⟨batch, stalled⟩, (batch.sent size).requestFor (batch.round size), reply, pause⟩ =
        if id ∈ batch.round size then (batch.sent size).firstFor? answer id else none := by
  have hcarries := h.carries_iff hstart (hstart.sentApart hlaid) id
  rw [carries, hslot, Option.any_some, decide_eq_true_iff, sentAs] at hcarries
  simp only [delivers?, hanswer]
  by_cases hround : id ∈ batch.round size
  · have hkeeps := h.keeps.trans (batch.keeps_sent size)
    have hsent := (h.sound hstart).sent size
    have hid := hsent.mem_pending_of_mem_flight hround
    obtain ⟨now, -, hnow, -⟩ := hsent.exists_slot hid
    obtain ⟨old, hold, hbare⟩ := hkeeps.getElem?_slots hnow
    obtain rfl : old = slot := Option.some.inj (hold.symm.trans hslot)
    obtain ⟨hplace, -, -, hpayload⟩ := Slot.bare_inj.mp hbare
    rw [if_pos (hcarries.mpr hround), if_pos hround,
      hsent.firstFor?_eq (hlaid.of_keeps hkeeps) hid hnow, hkeeps.tableName, ← hplace, ← hpayload]
  · rw [if_neg fun hmem => hround (hcarries.mp hmem), if_neg hround]

/-- While a slot is pending, nothing was delivered for it and its items are as they were; then at
    most one item was, and its items stand as that item leaves them. -/
theorem Course.cell_of_held (h : Course size start exchanges batch)
    (hregistered : Registered .get consistent orders start) (hlaid : LaidOut layouts start)
    (hslot : start.slots[id]? = some slot) (htype : start.HasType table type)
    (hheld : start.holdsItem table position id = true) :
    (id ∈ batch.pending → deliveries (layouts table) table slot.payload exchanges = [] ∧
      batch.cell table position = start.cell table position) ∧
    (id ∉ batch.pending →
      (deliveries (layouts table) table slot.payload exchanges).length ≤ 1 ∧
      batch.cell table position = (start.cell table position).settle type
        (deliveries (layouts table) table slot.payload exchanges)) := by
  have htable : start.tableName slot.table = table := by
    obtain ⟨own, hown, hname, -⟩ := holdsItem_iff.mp hheld
    rwa [Option.some.inj (hown.symm.trans hslot)] at hname
  induction h with
  | start =>
    refine ⟨fun _ => ⟨rfl, rfl⟩, fun hid => ?_⟩
    rw [hregistered.filed.pending_eq, List.mem_range] at hid
    exact absurd (List.getElem?_eq_some_iff.mp hslot).1 hid
  | @round exchanges batch after reply settled h stalled pause hreceive ih =>
    obtain ⟨hwaits, hdone⟩ := ih
    have hkeeps := h.keeps.trans (batch.keeps_sent size)
    have hsent := (h.sound hregistered.sound).sent size
    obtain ⟨answer, hanswer, rfl⟩ :=
      receive_of_get (hkeeps.purpose.trans hregistered.frame.1) hreceive
    have hunique : ∀ i j, (batch.sent size).holdsItem table position i = true →
        (batch.sent size).holdsItem table position j = true → i = j := by
      rw [hkeeps.holdsItem_eq]
      exact fun i j => hregistered.eq_of_holdsItem
    have hnow : (batch.sent size).holdsItem table position id = true := by
      rw [hkeeps.holdsItem_eq]
      exact hheld
    have hdelivers := h.delivers?_eq hregistered.sound hlaid hslot stalled pause hanswer
    rw [htable] at hdelivers
    rw [deliveries_snoc, hdelivers]
    have hpending : id ∈ ((batch.sent size).receiveItems (batch.round size) answer).2.pending ↔
        id ∈ batch.pending ∧ (id ∈ batch.round size →
          (batch.sent size).again (batch.round size) answer id = true) :=
      pending_sent batch size ▸ (settles_receiveItems _ _ _).mem_pending_iff
    by_cases hround : id ∈ batch.round size
    · -- the slot is one of the round: it receives an item, is missing, or waits for another try
      have hid : id ∈ batch.pending := h.mem_pending_of_mem_round hregistered.sound hround
      obtain ⟨hnone, hcell⟩ := hwaits hid
      have hreceived := hsent.cell_receiveItems (hkeeps.hasType htype) hunique hround hnow answer
      rw [cell_sent, hcell] at hreceived
      rw [hpending, hnone, hreceived, if_pos hround, again, contains_found hround, List.nil_append]
      cases (batch.sent size).firstFor? answer id with
      | some item => simp [Cell.settle, hround]
      | none =>
        by_cases hundone : id ∈ (batch.sent size).undone answer <;>
          simp [Cell.settle, hundone, hid, hround]
    · have hsame : ((batch.sent size).receiveItems (batch.round size) answer).2.cell table
          position = batch.cell table position := by
        rw [hsent.cell_receiveItems_of_not hunique fun other hother => ?_, cell_sent]
        refine Bool.eq_false_of_not_eq_true fun hotherHeld => hround ?_
        exact hunique other id hotherHeld hnow ▸ hother
      have hstays := hpending.trans ⟨And.left, fun hid => ⟨hid, fun hmem => absurd hmem hround⟩⟩
      rw [hsame, hstays, if_neg hround, Option.toList_none, List.append_nil]
      exact ⟨hwaits, hdone⟩

/-- The items that have no slot are as they were. -/
theorem Course.cell_of_unheld (h : Course size start exchanges batch)
    (hregistered : Registered .get consistent orders start)
    (hnot : ∀ id, start.holdsItem table position id = false) :
    batch.cell table position = start.cell table position := by
  induction h with
  | start => rfl
  | @round exchanges batch after reply settled h stalled pause hreceive ih =>
    have hkeeps := h.keeps.trans (batch.keeps_sent size)
    have hholds : ∀ id, (batch.sent size).holdsItem table position id = false := by
      rw [hkeeps.holdsItem_eq]
      exact hnot
    obtain ⟨answer, -, rfl⟩ :=
      receive_of_get (hkeeps.purpose.trans hregistered.frame.1) hreceive
    rw [((h.sound hregistered.sound).sent size).cell_receiveItems_of_not ?_
      (fun id _ => hholds id), cell_sent, ih]
    intro i j hi
    rw [hholds i] at hi
    cases hi

/-- At the end the items of a slot stand as what was delivered for it leaves them. -/
theorem Course.cell_finish_of_held (h : Course size start exchanges batch)
    (hregistered : Registered .get consistent orders start) (hlaid : LaidOut layouts start)
    (hslot : start.slots[id]? = some slot) (htype : start.HasType table type)
    (hheld : start.holdsItem table position id = true) :
    (deliveries (layouts table) table slot.payload exchanges).length ≤ 1 ∧
      batch.finish.2.cell table position = (start.cell table position).settle type
        (deliveries (layouts table) table slot.payload exchanges) := by
  obtain ⟨hwaits, hdone⟩ := h.cell_of_held hregistered hlaid hslot htype hheld
  rw [cell_finish]
  by_cases hid : id ∈ batch.pending
  · obtain ⟨hnone, hcell⟩ := hwaits hid
    rw [hnone, hcell, h.get?_finish hregistered hid hheld, leftover,
      if_pos (h.keeps.purpose.trans hregistered.frame.1)]
    exact ⟨Nat.zero_le 1, rfl⟩
  · obtain ⟨hlength, hcell⟩ := hdone hid
    refine ⟨hlength, ?_⟩
    rw [get?_finish_of_not_pending fun other hother => ?_]
    · exact hcell
    · refine Bool.eq_false_of_not_eq_true fun hotherHeld => hid ?_
      rw [h.keeps.holdsItem_eq] at hotherHeld
      exact hregistered.eq_of_holdsItem hotherHeld hheld ▸ hother

/-- At the end the items that have no slot are as they were. -/
theorem Course.cell_finish_of_unheld (h : Course size start exchanges batch)
    (hregistered : Registered .get consistent orders start)
    (hnot : ∀ id, start.holdsItem table position id = false) :
    batch.finish.2.cell table position = start.cell table position := by
  rw [cell_finish, get?_finish_of_not_pending fun id _ => by rw [h.keeps.holdsItem_eq, hnot],
    ← h.cell_of_unheld hregistered hnot]
  rfl

end Course

/-! ## Registered keys -/

section Registered

variable {layouts : String → KeyLayout} {consistent : Bool} {orders : List Order} {start : Batch}
  {order : Order}

/-- The table of an order has the type and the items of the order. -/
theorem Registered.exists_table {purpose : Purpose}
    (h : Registered purpose consistent orders start) (horder : order ∈ orders) :
    ∃ table, start.findTable? order.table = some table ∧ table.type = order.type ∧
      table.items = order.items := by
  have hmem : (order.table, order.type, order.items) ∈ start.tables.map Table.face := by
    rw [h.frame_faces.2.2]
    exact List.mem_map_of_mem horder
  obtain ⟨table, htable, hface⟩ := List.mem_map.mp hmem
  obtain ⟨hname, hrest⟩ := Prod.mk.inj hface
  obtain ⟨htype, hitems⟩ := Prod.mk.inj hrest
  obtain ⟨place, hplace⟩ := List.mem_iff_getElem?.mp htable
  exact ⟨table, hname ▸ h.sound.findTable?_eq_some hplace, htype, hitems⟩

theorem Registered.hasType {purpose : Purpose} (h : Registered purpose consistent orders start)
    (horder : order ∈ orders) : start.HasType order.table order.type := by
  obtain ⟨table, htable, htype, -⟩ := h.exists_table horder
  intro own hown
  rw [← Option.some.inj (htable.symm.trans hown), htype]

/-- At the start the items of an order stand at their positions, and those without key are
    reported. -/
theorem Registered.cell_eq {purpose : Purpose} (h : Registered purpose consistent orders start)
    (horder : order ∈ orders) {position : Nat} {item : Json}
    (hitem : order.items[position]? = some item) :
    start.cell order.table position = (some item, order.errorAt? purpose position) := by
  obtain ⟨table, htable, -, hitems⟩ := h.exists_table horder
  rw [cell, htable, Option.bind_some, hitems, hitem, h.get?_report_of_mem horder]

/-- An item that a slot has, has a key. -/
theorem Registered.entryAt?_of_holdsItem {purpose : Purpose}
    (h : Registered purpose consistent orders start) (horder : order ∈ orders) {position id : Nat}
    (hheld : start.holdsItem order.table position id = true) :
    (order.entryAt? purpose position).isSome := by
  obtain ⟨slot, hslot, htable, hposition⟩ := holdsItem_iff.mp hheld
  have hholds := h.filed.holds slot (List.mem_of_getElem? hslot)
  obtain ⟨filing, hfiling, hkey, rfl⟩ := hholds.mem_positions.mp hposition
  have hname := (hholds.tableName_eq hfiling hkey).symm.trans htable
  rw [(h.mem_allFilings horder hname).mp hfiling]
  rfl

/-- A batch that reads asks for keys. -/
theorem payload_of_entryOf {cache : SchemaCache} {type : ItemType} {item : Json} {entry : Entry}
    (h : (entryOf .get cache type item).1 = .ok entry) : entry.payload = entry.key := by
  obtain ⟨attributes, schema, key, -, -, -, rfl⟩ := of_entryOf_eq_ok h
  rfl

/-- Where all items of a table have one layout, a slot is sent as the key of each of its items. -/
theorem Registered.payload_eq (h : Registered .get consistent orders start)
    (hlayouts : ∀ filing ∈ allFilings .get orders, filing.entry.layout = layouts filing.table)
    {filing : Filing} (hfiling : filing ∈ allFilings .get orders) {slot : Slot}
    (hslot : slot ∈ start.slots) (hkey : slot.key = filing.key) :
    slot.payload = filing.entry.key := by
  have hentry : ∀ {filing : Filing}, filing ∈ allFilings .get orders →
      filing.entry.payload = filing.entry.key ∧
        ∃ attributes, filing.entry.layout.valuesOf attributes = .ok filing.entry.key := by
    intro filing hfiling
    obtain ⟨order, -, hmem⟩ := List.mem_flatMap.mp hfiling
    obtain ⟨item, -, hok⟩ := Order.entryAt?_eq_some_iff.mp (Order.mem_filings.mp hmem).2
    exact ⟨payload_of_entryOf hok, valuesOf_of_entryOf hok⟩
  obtain ⟨last, hlast, hlastKey, hsent⟩ := h.exists_sent hslot
  obtain ⟨hpayload, attributes, hvalues⟩ := hentry hlast
  obtain ⟨-, attributes', hvalues'⟩ := hentry hfiling
  obtain ⟨htable, hsame⟩ := KeyLayout.identity_inj.mp (hlastKey.trans hkey)
  have hlayout : last.entry.layout = filing.entry.layout := by
    rw [hlayouts last hlast, hlayouts filing hfiling, htable]
  rw [← (Prod.mk.inj hsent).2, hpayload]
  exact key_eq_of_values_eq hvalues hvalues' (congrArg KeyLayout.names hlayout) hsame

end Registered

end Batch

/-! ## Runs -/

open Batch

/-- The key of an item of a declared type, or why it has none. -/
def DeclaredOrder.keyOf (order : DeclaredOrder) (item : Json) : Except ItemError AttributeMap :=
  match AttributeMap.ofDocument item with
  | .error error => .error (.codec error)
  | .ok attributes =>
    match order.schema.primaryKey attributes with
    | .error error => .error (.invalidKey error)
    | .ok key => .ok key.values

/-- What stands at the position of an item in the end: the first item that was delivered for its
    key, if there is one that is of the type, else the item itself and why it was not replaced. -/
def DeclaredOrder.reads (order : DeclaredOrder) (exchanges : List (Exchanged Running))
    (item : Json) : Cell :=
  match order.keyOf item with
  | .error error => (some item, some error)
  | .ok key =>
    match deliveries order.schema.primary order.table key exchanges with
    | [] => (some item, some .notFound)
    | found :: _ =>
      match order.type.decode found with
      | .error error => (some item, some (.codec error))
      | .ok document => (some document, none)

namespace Batch

section Declared

variable {consistent : Bool} {orders : List Order} {declared : List DeclaredOrder} {size : Nat}
  {start batch : Batch} {exchanges : List (Exchanged Running)}

/-- An item of a declared type is registered with its key. -/
theorem Order.Matches.entryOf_get {order : Order} {other : DeclaredOrder} (h : order.Matches other)
    (item : Json) : (entryOf .get order.cache order.type item).1 =
      (other.keyOf item).map fun key => ⟨other.schema.primary, key, key⟩ := by
  rw [entryOf_fst, DeclaredOrder.keyOf, h.type]
  cases AttributeMap.ofDocument item with
  | error error => rfl
  | ok attributes =>
    simp only [Except.mapError, bind, Except.bind,
      h.agrees.schemaFor_declared other.declared other.valid, reduceCtorEq, if_false]
    cases other.schema.primaryKey attributes <;> rfl

/-- At the end every item of a declared type stands as it was read, and at most one item was
    delivered for its key. -/
theorem Course.cell_finish_eq (h : Course size start exchanges batch)
    (hregistered : Registered .get consistent orders start)
    (hfrom : ∀ order ∈ orders, ∃ other ∈ declared, order.Matches other)
    {layouts : String → KeyLayout}
    (hlayouts : ∀ other ∈ declared, layouts other.table = other.schema.primary)
    {order : Order} (horder : order ∈ orders) {other : DeclaredOrder} (hother : other ∈ declared)
    (hmatches : order.Matches other) {position : Nat} {item : Json}
    (hitem : other.items[position]? = some item) :
    batch.finish.2.cell other.table position = other.reads exchanges item ∧
      ∀ key, other.keyOf item = .ok key →
        (deliveries other.schema.primary other.table key exchanges).length ≤ 1 := by
  have hfiled : ∀ filing ∈ allFilings .get orders,
      filing.entry.layout = layouts filing.table := fun filing hfiling =>
    layout_of_mem_allFilings hfrom hlayouts hfiling
  have hitem' : order.items[position]? = some item := hmatches.items ▸ hitem
  have hcell := hregistered.cell_eq horder hitem'
  have hentryOf := hmatches.entryOf_get item
  rw [DeclaredOrder.reads, ← hmatches.table]
  cases hkey : other.keyOf item with
  | error error =>
    rw [hkey] at hentryOf
    have hnone : order.entryAt? .get position = none := by
      rw [Order.entryAt?, hitem', Option.bind_some, hentryOf]
      rfl
    have herror : order.errorAt? .get position = some error := by
      rw [Order.errorAt?, hitem', Option.bind_some, keyError?, hentryOf]
      rfl
    have hunheld : ∀ id, start.holdsItem order.table position id = false := by
      refine fun id => Bool.eq_false_of_not_eq_true fun hheld => ?_
      have hsome := hregistered.entryAt?_of_holdsItem horder hheld
      rw [hnone] at hsome
      cases hsome
    rw [h.cell_finish_of_unheld hregistered hunheld, hcell, herror]
    exact ⟨rfl, fun key hkey => by cases hkey⟩
  | ok key =>
    rw [hkey] at hentryOf
    have hentry : order.entryAt? .get position = some ⟨other.schema.primary, key, key⟩ :=
      Order.entryAt?_eq_some_iff.mpr ⟨item, hitem', hentryOf⟩
    obtain ⟨id, slot, hslot, hslotKey, htable, hheld⟩ := hregistered.exists_holdsItem horder hentry
    have hfiling : (⟨order.table, position, ⟨other.schema.primary, key, key⟩⟩ : Filing) ∈
        allFilings .get orders := (hregistered.mem_allFilings horder rfl).mpr hentry
    have hpayload := hregistered.payload_eq hfiled hfiling (List.mem_of_getElem? hslot) hslotKey
    obtain ⟨honce, hfinish⟩ := h.cell_finish_of_held hregistered
      (laidOut_of_matches hregistered hfrom hlayouts) hslot (hregistered.hasType horder) hheld
    have hlayout : layouts order.table = other.schema.primary :=
      (congrArg layouts hmatches.table).trans (hlayouts other hother)
    rw [hpayload, hlayout] at honce hfinish
    rw [hfinish, hcell, Order.errorAt?_of_entryAt? hentry, hmatches.type]
    refine ⟨?_, fun key' hkey' => Except.ok.inj hkey' ▸ honce⟩
    simp only
    cases deliveries other.schema.primary order.table key exchanges with
    | nil => rfl
    | cons found rest =>
      simp only [Cell.settle, Cell.receive]
      cases other.type.decode found <;> rfl

end Declared

end Batch

/-- The primary key layout of the table of an order. -/
def layoutOf (orders : List DeclaredOrder) (table : String) : KeyLayout :=
  ((orders.find? fun order => order.table = table).map fun order => order.schema.primary).getD ⟨[]⟩

theorem layoutOf_eq {orders : List DeclaredOrder}
    (hnodup : (orders.map DeclaredOrder.table).Nodup) :
    ∀ order ∈ orders, layoutOf orders order.table = order.schema.primary := by
  intro order horder
  rw [layoutOf]
  cases hfound : orders.find? fun other => other.table = order.table with
  | none => simpa using List.find?_eq_none.mp hfound order horder
  | some found =>
    have hname : found.table = order.table := by simpa using List.find?_some hfound
    rw [List.inj_on_of_nodup_map hnodup (List.mem_of_find?_eq_some hfound) horder hname]
    rfl

/-- A batch of gets of declared types ends on every script of replies. If all replies are taken,
    each item stands in the end as it was read: it is replaced by the item that was delivered for
    its key, the first one of its kind under the table in the reply to a request that carried the
    key, and there is at most one such reply; else it is as it was and is reported. The batch
    succeeds exactly if it reports nothing. A batch with a table that is registered twice sends
    nothing and fails. Types of one name are one type, and the cache of the client keeps what they
    declare, as every cache does that only they were looked up in. -/
theorem runBatch_reads (client : Client) (consistent : Bool) (orders : List DeclaredOrder)
    (htypes : ∀ a ∈ orders, ∀ b ∈ orders, a.type.name = b.type.name →
      a.type.schema? = b.type.schema?)
    (hcache : ∀ order ∈ orders, client.cache.Agrees order.type) :
    let start := (client.registerAll (Client.batch .get consistent) orders).1
    (∀ script : Nat → Reply, ∃ exchanges result,
      Ends client.runBatch ⟨start, 0⟩ exchanges result ∧ Follows script exchanges) ∧
    ∀ exchanges outcome after, Ends client.runBatch ⟨start, 0⟩ exchanges (outcome, after) →
      (∀ exchange ∈ exchanges, ∃ reply, exchange.reply.as BatchGetReply = .ok reply) →
        if (orders.map DeclaredOrder.table).Nodup then
          (∀ order ∈ orders, ∀ position item, order.items[position]? = some item →
            after.cell order.table position = order.reads exchanges item ∧
              ∀ key, order.keyOf item = .ok key →
                (deliveries order.schema.primary order.table key exchanges).length ≤ 1) ∧
          (outcome = .ok () ↔ ∀ table position, after.report.get? table position = none) ∧
          (outcome = .ok () ∨ outcome = .error (.batch after.report))
        else exchanges = [] ∧ ∃ table, outcome = .error (.duplicateTable table) := by
  by_cases hnodup : (orders.map DeclaredOrder.table).Nodup
  · have hempty : Registered .get consistent [] (Client.batch .get consistent) := .empty
    obtain ⟨registered, hstart, hfrom, hto⟩ :=
      registered_registerAll hempty (by simpa using hnodup) htypes hcache
    rw [List.nil_append] at hstart
    generalize (client.registerAll (Client.batch .get consistent) orders).1 = start at hstart
    obtain ⟨hpurpose, hfault, -⟩ := hstart.frame
    refine ⟨exists_ends client.config hstart.sound hfault,
      fun exchanges outcome after hends hreplies => ?_⟩
    rw [if_pos hnodup]
    obtain ⟨last, hcourse, hfinish⟩ := (Course.of_ends hstart.sound hfault hends).resolve_right <|
        by
      rintro ⟨cause, -, failed, hfailed, sent, round, hkeeps, hreceive⟩
      obtain ⟨answer, hanswer⟩ := hreplies failed hfailed
      rw [receive, hkeeps.purpose.trans hpurpose, hanswer] at hreceive
      cases hreceive
    have hsorted := hcourse.recorded.sorted hstart.sorted_report
    have houtcome := finish_outcome hsorted
    rw [hfinish] at houtcome
    refine ⟨fun order horder position item hitem => ?_, houtcome⟩
    obtain ⟨order', horder', hmatches⟩ := hto order horder
    have hread := hcourse.cell_finish_eq hstart hfrom (layoutOf_eq hnodup) horder' horder hmatches
      hitem
    rwa [hfinish] at hread
  · obtain ⟨registered, htables, heq⟩ :=
      exists_registerAll_eq client (Client.batch .get consistent) orders
    obtain ⟨table, hfault⟩ : ∃ table,
        (client.registerAll (Client.batch .get consistent) orders).1.fault? =
          some (.duplicateTable table) := by
      rcases ofOrders_cases .get consistent registered with ⟨hdistinct, -⟩ | ⟨-, hfault⟩
      · exact absurd (htables ▸ hdistinct) hnodup
      · rw [heq]
        exact hfault
    refine ⟨fun script => ⟨[], _, .silent .start (run_of_fault client.config 0 hfault),
      follows_nil script⟩, fun exchanges outcome after hends _ => ?_⟩
    rw [if_neg hnodup]
    obtain ⟨hnil, hresult⟩ := ends_of_fault hfault hends
    exact ⟨hnil, table, congrArg Prod.fst hresult⟩

/-- Three keys of which two are the same. -/
def threeKeys : DeclaredOrder where
  table := "T"
  type := ⟨"item", some { primary := .ofHash "id" }, some⟩
  schema := { primary := .ofHash "id" }
  items := [.object [("id", .string "x")], .object [("id", .string "y")],
    .object [("id", .string "x")]]
  declared := twoVersions.declared
  valid := twoVersions.valid

/-- The batch that reads the three keys. -/
def threeKeysBatch : Batch :=
  (Client.registerAll {} (Client.batch .get false) [threeKeys]).1

/-- A reply that brings an item of another key, two items of the first key, and an item of the
    second key under another table, and leaves the second key undone. -/
def strayReply : Reply :=
  replyWith (⟨[("T", [[("id", .string "z")], [("id", .string "x"), ("n", .string "1")],
      [("id", .string "x"), ("n", .string "2")]]), ("U", [[("id", .string "y")]])],
    [("T", ⟨[[("id", .string "y")]], false⟩)]⟩ : BatchGetReply)

/-- A reply that brings an item that was not asked for again. -/
def lateReply : Reply :=
  replyWith (⟨[("T", [[("id", .string "x"), ("n", .string "3")]])], []⟩ : BatchGetReply)

/-- The two positions of the first key get the first of its items, the second key is not found. -/
theorem runBatch_reads_threeKeys :
    ∃ exchanges after,
      Ends (Client.runBatch {}) ⟨threeKeysBatch, 0⟩ exchanges
        (.error (.batch after.report), after) ∧
      exchanges.map Exchanged.reply = [strayReply, lateReply] ∧
      after.cell "T" 0 = (some (.object [("id", .string "x"), ("n", .string "1")]), none) ∧
      after.cell "T" 1 = (some (.object [("id", .string "y")]), some .notFound) ∧
      after.cell "T" 2 = (some (.object [("id", .string "x"), ("n", .string "1")]), none) := by
  have hask : Client.runBatch {} ⟨threeKeysBatch, 0⟩ = .ask _ _ := rfl
  obtain ⟨first, state, request, receive, state', after, hfirst, hnext, hasks, hdone, hreply,
      hreplies, hreads⟩ : ∃ first state request receive state' after,
      Passes (Client.runBatch {}) ⟨threeKeysBatch, 0⟩ [first] state ∧
      (receive lateReply).state? = some state' ∧
      Client.runBatch {} state = .ask request receive ∧
      Client.runBatch {} state' = .done (.done (.error (.batch after.report), after)) ∧
      first.reply = strayReply ∧
      (∀ exchange ∈ [first, ⟨state, request, lateReply, (receive lateReply).pause⟩],
        ∃ reply, exchange.reply.as BatchGetReply = .ok reply) ∧
      threeKeys.items.map
          (threeKeys.reads [first, ⟨state, request, lateReply, (receive lateReply).pause⟩]) =
        [(some (.object [("id", .string "x"), ("n", .string "1")]), none),
          (some (.object [("id", .string "y")]), some .notFound),
          (some (.object [("id", .string "x"), ("n", .string "1")]), none)] :=
    ⟨_, _, _, _, _, _, .step .start hask strayReply rfl, rfl, rfl, rfl, rfl,
      List.forall_mem_cons.mpr ⟨⟨_, rfl⟩, List.forall_mem_singleton.mpr ⟨_, rfl⟩⟩, by decide⟩
  have hends := Ends.silent (hfirst.step hasks lateReply hnext) hdone
  obtain ⟨-, hresult⟩ := runBatch_reads {} false [threeKeys]
    (by simp) (fun _ _ schema h => by cases h)
  have hcells := hresult _ _ _ hends hreplies
  rw [if_pos (by decide)] at hcells
  have hcell := hcells.1 threeKeys (List.mem_singleton_self _)
  obtain ⟨hzero, hrest⟩ := List.cons.inj hreads
  obtain ⟨hone, hrest⟩ := List.cons.inj hrest
  obtain ⟨htwo, -⟩ := List.cons.inj hrest
  refine ⟨_, after, hends, by simp [hreply], ?_, ?_, ?_⟩
  · exact (hcell 0 _ rfl).1.trans hzero
  · exact (hcell 1 _ rfl).1.trans hone
  · exact (hcell 2 _ rfl).1.trans htwo

/-- A batch for which a table is registered again ends with an item that has a key, for which
    nothing is delivered, and that is not reported. -/
theorem unread_registeredAgain :
    let item : Json := .object [("id", .string "x")]
    threeKeys.items[0]? = some item ∧ threeKeys.reads [] item = (some item, some .notFound) ∧
      ∃ after, Ends (Client.runBatch {})
          ⟨(Client.registerAll {} (Client.batch .get false)
            [threeKeys, { threeKeys with items := [] }]).1, 0⟩ []
          (.error (.duplicateTable "T"), after) ∧
        after.cell "T" 0 = (some item, none) := by
  intro item
  have hends : Ends (Client.runBatch {})
      ⟨(Client.registerAll {} (Client.batch .get false)
        [threeKeys, { threeKeys with items := [] }]).1, 0⟩ []
      (.error (.duplicateTable "T"), (Client.registerAll {} (Client.batch .get false)
        [threeKeys, { threeKeys with items := [] }]).1) :=
    .silent .start rfl
  exact ⟨rfl, by decide, _, hends, by decide⟩

end TableClient
