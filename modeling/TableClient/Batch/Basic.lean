import TableClient.Conversation
import TableClient.Key.Identity

/-!
# Batches

A batch reads, stores or deletes items of several tables. Items of one table with the same key
share a slot: the key is sent once, with the payload of the last such item, and all of them share
its outcome. A slot is pending until its outcome is known; a pending slot waits among the fresh
ones of its table or, once the store has left it undone, for another try.
-/

namespace TableClient

open MessagePack (Bytes)

namespace Batch

/-- What a batch does with its items. -/
inductive Purpose where
  | put
  | delete
  | get
deriving DecidableEq

/-- A key of a table, and the items that have it. -/
structure Slot where
  /-- The place of the table in the batch. -/
  table : Nat
  /-- The positions of the items that have the key. -/
  positions : List Nat
  /-- What the key is known by. -/
  key : Bytes
  /-- What is sent: the item for a put, else the key attributes. -/
  payload : AttributeMap
  /-- The requests that have carried the slot so far. -/
  attempts : Nat := 0
deriving DecidableEq

/-- A table of a batch. -/
structure Table where
  name : String
  type : ItemType
  /-- The items; a batch that reads puts those it receives in place of their keys. -/
  items : List Json
  /-- The key layouts of the items, each once. -/
  layouts : List KeyLayout := []
  /-- The slots that no request has carried yet, in order. -/
  fresh : List Nat := []

end Batch

/-- A batch. Slots are known by their place in `slots`. -/
structure Batch where
  purpose : Batch.Purpose
  /-- Whether strongly consistent reads are asked for. -/
  consistent : Bool := false
  tables : List Batch.Table := []
  slots : List Batch.Slot := []
  /-- The slots whose outcome is not known, in order. -/
  pending : List Nat := []
  /-- The pending slots that a request has carried, in the order in which they wait. -/
  retry : List Nat := []
  /-- The errors of single items. -/
  report : BatchReport := {}
  /-- Why the batch cannot run at all, if it cannot. -/
  fault? : Option Error := none

namespace Batch

/-! ## Registration -/

/-- The pending slot of a key. -/
def findPending? (batch : Batch) (key : Bytes) : Option Nat :=
  batch.pending.find? fun id => (batch.slots[id]?).any fun slot => slot.key = key

/-- The pending slot that attributes belong to in a table: the first hit among the key layouts of
    the table. -/
def findSlot? (batch : Batch) (table : Table) (attributes : AttributeMap) : Option Nat :=
  table.layouts.findSome? fun layout => batch.findPending? (layout.identity table.name attributes)

/-- The table of a name, with its place. -/
def findTable? (batch : Batch) (name : String) : Option Table :=
  batch.tables.find? fun table => table.name = name

/-- What an item is registered with. -/
structure Entry where
  layout : KeyLayout
  key : AttributeMap
  payload : AttributeMap
deriving DecidableEq

/-- The key and the payload of an item. Empty attributes are dropped from an item that is to be
    stored before its key is looked for. -/
def entryOf (purpose : Purpose) (cache : SchemaCache) (type : ItemType) (item : Json) :
    Except ItemError Entry × SchemaCache :=
  match AttributeMap.ofDocument item with
  | .error error => (.error (.codec error), cache)
  | .ok attributes =>
    let attributes := if purpose = .put then attributes.withoutEmpty else attributes
    match cache.schemaFor type attributes with
    | (.error error, cache) => (.error (.invalidKey error), cache)
    | (.ok schema, cache) =>
      match schema.primaryKey attributes with
      | .error error => (.error (.invalidKey error), cache)
      | .ok key =>
        let payload := if purpose = .put then attributes else key.values
        (.ok ⟨schema.primary, key.values, payload⟩, cache)

/-- Adds a key layout to those of a table, unless it is one of them. -/
def Table.addLayout (table : Table) (layout : KeyLayout) : Table :=
  if table.layouts.contains layout then table
  else { table with layouts := table.layouts ++ [layout] }

/-- Adds a slot behind the fresh ones of a table. -/
def Table.addFresh (table : Table) (id : Nat) : Table := { table with fresh := table.fresh ++ [id] }

/-- Puts an item of the table at place `place` into the slot of its key: into the pending one if
    there is one, else into a new one. -/
def addItem (batch : Batch) (place : Nat) (name : String) (position : Nat) (entry : Entry) : Batch :=
  let key := entry.layout.identity name entry.key
  let tables := batch.tables.modify place (·.addLayout entry.layout)
  match batch.findPending? key with
  | some id =>
    { batch with
      tables
      slots := batch.slots.modify id fun slot =>
        { slot with positions := slot.positions ++ [position], payload := entry.payload } }
  | none =>
    let id := batch.slots.length
    { batch with
      tables := tables.modify place (·.addFresh id)
      slots := batch.slots ++ [⟨place, [position], key, entry.payload, 0⟩]
      pending := batch.pending ++ [id] }

/-- Adds items of a table from a position on; those without a key are reported. -/
def addItems (batch : Batch) (cache : SchemaCache) (place : Nat) (name : String) (type : ItemType)
    (position : Nat) : List Json → Batch × SchemaCache
  | [] => (batch, cache)
  | item :: items =>
    let (outcome, cache) := entryOf batch.purpose cache type item
    let batch :=
      match outcome with
      | .ok entry => batch.addItem place name position entry
      | .error error => { batch with report := batch.report.record name position error }
    addItems batch cache place name type (position + 1) items

/-- Registers the items of a table. A table can be registered once; a second time is an error of
    the whole batch, and nothing is registered behind an error. -/
def register (batch : Batch) (cache : SchemaCache) (name : String) (type : ItemType)
    (items : List Json) : Batch × SchemaCache :=
  if batch.fault?.isSome then (batch, cache)
  else if (batch.findTable? name).isSome then
    ({ batch with fault? := some (.duplicateTable name) }, cache)
  else
    let place := batch.tables.length
    addItems { batch with tables := batch.tables ++ [{ name, type, items }] }
      cache place name type 0 items

end Batch

end TableClient
