import TableClient.Batch.Basic

/-!
# Rounds of a batch

A round is a set of pending slots that one request carries. The slots that wait for another try
go first; what room is left is shared evenly by the tables that have fresh slots. The reply tells
which slots the store left undone: these wait for another try, all others are settled.

Results:
* `length_sweep_le`: a sweep takes no more than there is room for.
* `length_collect_le`: a round has no more slots than asked for.
-/

namespace TableClient.Batch

/-! ## Collecting a round -/

/-- Takes up to `share` fresh slots from each table in turn, and no more than `room` in all.
    Returns the slots and the tables without them. -/
def sweep (share room : Nat) : List Table → List Nat × List Table
  | [] => ([], [])
  | table :: tables =>
    let taken := table.fresh.take (min share room)
    let (more, tables) := sweep share (room - taken.length) tables
    (taken ++ more, { table with fresh := table.fresh.drop (min share room) } :: tables)

/-- Sweeps over the tables `count` times while there is room. -/
def sweeps (share : Nat) : (count room : Nat) → List Table → List Nat × List Table
  | 0, _, tables => ([], tables)
  | count + 1, room, tables =>
    let (taken, tables) := sweep share room tables
    let (more, tables) := sweeps share count (room - taken.length) tables
    (taken ++ more, tables)

/-- The next round of at most `size` slots, and the batch without them in its queues. A sweep that
    takes nothing is followed by none that does, so as many sweeps as there is room are enough. -/
def collect (size : Nat) (batch : Batch) : List Nat × Batch :=
  let taken := batch.retry.take size
  let room := size - taken.length
  let active := batch.tables.countP fun table => !table.fresh.isEmpty
  let (fresh, tables) := sweeps (max (room / active) 1) room room batch.tables
  (taken ++ fresh, { batch with retry := batch.retry.drop size, tables })

/-! ## Requests -/

/-- The name of the table at a place. -/
def tableName (batch : Batch) (place : Nat) : String := (batch.tables[place]?.map Table.name).getD ""

/-- Counts the request that carries a round. -/
def countAttempt (batch : Batch) (round : List Nat) : Batch :=
  { batch with slots := round.foldl (fun slots id =>
      slots.modify id fun slot => { slot with attempts := slot.attempts + 1 }) batch.slots }

/-- The slots of a round. -/
def slotsOf (batch : Batch) (round : List Nat) : List Slot := round.filterMap fun id => batch.slots[id]?

/-- What a slot is written as. -/
def Slot.write (purpose : Purpose) (slot : Slot) : Protocol.Write :=
  if purpose = .put then .put slot.payload else .delete slot.payload

/-- The input that writes a round. -/
def writeInput (batch : Batch) (round : List Nat) : Protocol.BatchWrite :=
  ⟨(batch.slotsOf round).foldl (fun (tables : Dict (List Protocol.Write)) slot =>
    let name := batch.tableName slot.table
    Dict.insert tables name ((Dict.get? tables name).getD [] ++ [slot.write batch.purpose])) []⟩

/-- The input that reads a round. -/
def getInput (batch : Batch) (round : List Nat) : Protocol.BatchGet :=
  ⟨(batch.slotsOf round).foldl (fun (tables : Dict Protocol.KeySelection) slot =>
    let name := batch.tableName slot.table
    let keys := ((Dict.get? tables name).map Protocol.KeySelection.keys).getD []
    Dict.insert tables name ⟨keys ++ [slot.payload], batch.consistent⟩) []⟩

/-! ## Replies -/

/-- Each entry of a reply by table, with the pending slot that it belongs to; entries of unknown
    tables and of no pending slot are passed over. -/
def matched {α : Type} (batch : Batch) (attributes : α → AttributeMap) (tables : Dict (List α)) :
    List (Nat × α) :=
  tables.flatMap fun (name, entries) =>
    match batch.findTable? name with
    | none => []
    | some table => entries.filterMap fun entry =>
      (batch.findSlot? table (attributes entry)).map fun id => (id, entry)

/-- Takes slots out of those whose outcome is not known. -/
def settle (batch : Batch) (ids : List Nat) : Batch :=
  { batch with pending := batch.pending.filter fun id => !ids.contains id }

/-- Lets slots wait for another try, behind those that already do. -/
def requeue (batch : Batch) (ids : List Nat) : Batch := { batch with retry := batch.retry ++ ids }

/-- Reports an error for all items of a slot. -/
def failSlot (batch : Batch) (error : ItemError) (id : Nat) : Batch :=
  match batch.slots[id]? with
  | none => batch
  | some slot =>
    { batch with report := slot.positions.foldl (fun report position =>
        report.record (batch.tableName slot.table) position error) batch.report }

/-- Takes the reply to the request that wrote a round. Returns the number of settled slots. -/
def receiveWrites (batch : Batch) (round : List Nat) (reply : Protocol.BatchWriteReply) :
    Nat × Batch :=
  let undone := (batch.matched Protocol.Write.attributes reply.unprocessed).map Prod.fst
  let (again, settled) := round.partition undone.contains
  (settled.length, (batch.settle settled).requeue again)

/-- Puts an item in the place of each key that shares a slot; where it is no item of the type of
    the table, reports that instead. -/
def deliver (batch : Batch) (id : Nat) (item : AttributeMap) : Batch :=
  match batch.slots[id]? with
  | none => batch
  | some slot =>
    match batch.tables[slot.table]? with
    | none => batch
    | some table =>
      match table.type.decode item with
      | .error error => batch.failSlot (.codec error) id
      | .ok document =>
        let items := slot.positions.foldl (fun items position => items.set position document)
          table.items
        { batch with tables := batch.tables.set slot.table { table with items } }

/-- Delivers the first of the items of each slot. Returns the slots that received one. -/
def deliverAll (batch : Batch) (received : List Nat) :
    List (Nat × AttributeMap) → List Nat × Batch
  | [] => (received, batch)
  | (id, item) :: rest =>
    if received.contains id then deliverAll batch received rest
    else deliverAll (batch.deliver id item) (received ++ [id]) rest

/-- Takes the reply to the request that read a round. A slot that received no item and was not left
    undone does not exist in the store. Returns the number of settled slots. -/
def receiveItems (batch : Batch) (round : List Nat) (reply : Protocol.BatchGetReply) :
    Nat × Batch :=
  let undone := (batch.matched id (reply.unprocessed.map fun entry => (entry.1, entry.2.keys))).map
    Prod.fst
  let found := (batch.matched id reply.responses).filter fun entry => round.contains entry.1
  let (received, batch) := batch.deliverAll [] found
  let (settled, again) := round.partition fun id => received.contains id || !undone.contains id
  let missing := settled.filter fun id => !received.contains id
  let batch := missing.foldl (failSlot · .notFound) batch
  (settled.length, (batch.settle settled).requeue again)

/-! ## Lemmas -/

/-- A sweep takes no more than there is room for. -/
theorem length_sweep_le (share room : Nat) (tables : List Table) :
    (sweep share room tables).1.length ≤ room := by
  induction tables generalizing room with
  | nil => simp [sweep]
  | cons table tables ih =>
    have := ih (room - (table.fresh.take (min share room)).length)
    simp only [sweep, List.length_append, List.length_take] at this ⊢
    omega

theorem length_sweeps_le (share count room : Nat) (tables : List Table) :
    (sweeps share count room tables).1.length ≤ room := by
  induction count generalizing room tables with
  | zero => simp [sweeps]
  | succ count ih =>
    have h := length_sweep_le share room tables
    have := ih (room - (sweep share room tables).1.length) (sweep share room tables).2
    simp only [sweeps, List.length_append]
    omega

/-- A round has no more slots than asked for. -/
theorem length_collect_le (size : Nat) (batch : Batch) : (batch.collect size).1.length ≤ size := by
  simp only [collect, List.length_append]
  have := length_sweeps_le
    (max ((size - (batch.retry.take size).length) /
      batch.tables.countP fun table => !table.fresh.isEmpty) 1)
    (size - (batch.retry.take size).length) (size - (batch.retry.take size).length) batch.tables
  have h : (batch.retry.take size).length ≤ size := List.length_take_le size batch.retry
  omega

end TableClient.Batch
