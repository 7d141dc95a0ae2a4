import Mathlib
import TableClient.Batch.Round
import TableClient.Proofs.Batch.Orders
import TableClient.Proofs.Dict

/-!
# What a round keeps

The slots of a batch that are pending wait in its queues, each in one place; while a request is
under way the slots it carries have left the queues, but are still pending. A round changes which
slots are pending, where they wait and how often they were sent, and nothing else.

Results:
* `Sound`: the pending slots, those under way and those that wait, are in step.
* `Sound.collect`, `Sound.countAttempt`, `Sound.settles`: each step of a round keeps them so.
* `entries_writeInput_perm`: a request has one entry for each slot of its round.
-/

namespace TableClient.Batch

open Protocol (Write BatchWriteReply)

/-! ## Slots and their items -/

/-- The positions of a slot are those that were filed under its key. -/
theorem Slot.Holds.mem_positions {slot : Slot} {tables : List Table} {log : List Filing}
    (h : slot.Holds tables log) {position : Nat} :
    position ∈ slot.positions ↔
      ∃ filing ∈ log, filing.key = slot.key ∧ filing.position = position := by
  rw [h.positions]
  simp [filedUnder, and_assoc]

/-- The filings under the key of a slot are of the table of the slot. -/
theorem Slot.Holds.tableName_eq {batch : Batch} {slot : Slot} {log : List Filing}
    (h : slot.Holds batch.tables log) {filing : Filing} (hfiling : filing ∈ log)
    (hkey : filing.key = slot.key) : batch.tableName slot.table = filing.table := by
  obtain ⟨table, htable, hfiled⟩ := h.table
  rw [tableName, htable]
  exact (hfiled filing hfiling hkey).1.symm

/-! ## What is kept -/

/-- A slot without the number of its requests. -/
def Slot.bare (slot : Slot) : Slot := { slot with attempts := 0 }

/-- A table without its queue and its items. -/
def Table.bare (table : Table) : Table := { table with items := [], fresh := [] }

theorem Slot.bare_inj {slot other : Slot} :
    slot.bare = other.bare ↔ slot.table = other.table ∧ slot.positions = other.positions ∧
      slot.key = other.key ∧ slot.payload = other.payload := by
  simp [Slot.bare]

theorem Table.bare_inj {table other : Table} :
    table.bare = other.bare ↔
      table.name = other.name ∧ table.type = other.type ∧ table.layouts = other.layouts := by
  simp [Table.bare]

/-- The batch has the slots and the tables that it had before. -/
structure Keeps (before after : Batch) : Prop where
  purpose : after.purpose = before.purpose
  fault? : after.fault? = before.fault?
  slots : after.slots.map Slot.bare = before.slots.map Slot.bare
  tables : after.tables.map Table.bare = before.tables.map Table.bare

namespace Keeps

variable {before after later : Batch}

theorem refl (batch : Batch) : Keeps batch batch := ⟨rfl, rfl, rfl, rfl⟩

theorem trans (h : Keeps before after) (h' : Keeps after later) : Keeps before later :=
  ⟨h'.purpose.trans h.purpose, h'.fault?.trans h.fault?, h'.slots.trans h.slots,
    h'.tables.trans h.tables⟩

theorem symm (h : Keeps before after) : Keeps after before :=
  ⟨h.purpose.symm, h.fault?.symm, h.slots.symm, h.tables.symm⟩

/-- What a slot is but for its requests stays the same. -/
theorem getElem?_slots (h : Keeps before after) {id : Nat} {slot : Slot}
    (hslot : after.slots[id]? = some slot) :
    ∃ old, before.slots[id]? = some old ∧ old.bare = slot.bare := by
  have := congrArg (fun slots => slots[id]?) h.slots
  rw [List.getElem?_map, List.getElem?_map, hslot] at this
  exact Option.map_eq_some_iff.mp this.symm

/-- What a table is but for its queue and its items stays the same. -/
theorem getElem?_tables (h : Keeps before after) {place : Nat} {table : Table}
    (htable : before.tables[place]? = some table) :
    ∃ new, after.tables[place]? = some new ∧ new.bare = table.bare := by
  have := congrArg (fun tables => tables[place]?) h.tables
  rw [List.getElem?_map, List.getElem?_map, htable] at this
  exact Option.map_eq_some_iff.mp this

theorem keys (h : Keeps before after) :
    after.slots.map Slot.key = before.slots.map Slot.key := by
  have := congrArg (List.map Slot.key) h.slots
  rw [List.map_map, List.map_map] at this
  exact this

theorem names (h : Keeps before after) :
    after.tables.map Table.name = before.tables.map Table.name := by
  have := congrArg (List.map Table.name) h.tables
  rw [List.map_map, List.map_map] at this
  exact this

theorem length_slots (h : Keeps before after) : after.slots.length = before.slots.length := by
  simpa using congrArg List.length h.slots

theorem tableName (h : Keeps before after) : after.tableName = before.tableName := by
  funext place
  rw [Batch.tableName, Batch.tableName, ← List.getElem?_map, ← List.getElem?_map, h.names]

end Keeps

/-! ## Queues in step -/

/-- The slots that wait for a request, those for another try first. -/
def queue (batch : Batch) : List Nat := batch.retry ++ batch.tables.flatMap Table.fresh

/-- The pending slots are those of the request under way and those that wait, and every slot has
    the key that its payload gives in a layout of its table. -/
structure Sound (batch : Batch) (flight : List Nat) : Prop where
  names_nodup : (batch.tables.map Table.name).Nodup
  keys_nodup : (batch.slots.map Slot.key).Nodup
  pending_nodup : batch.pending.Nodup
  pending_lt : ∀ id ∈ batch.pending, id < batch.slots.length
  queue_perm : (flight ++ batch.queue).Perm batch.pending
  keyed : ∀ slot ∈ batch.slots, ∃ table, batch.tables[slot.table]? = some table ∧
    ∃ layout ∈ table.layouts, slot.key = layout.identity table.name slot.payload

namespace Sound

variable {batch after : Batch} {flight : List Nat}

/-- A batch with the same slots and tables is sound when its queues are. -/
theorem of_keeps (h : Sound batch flight) (hkeeps : Keeps batch after)
    (hpending : after.pending.Sublist batch.pending) {flight' : List Nat}
    (hqueue : (flight' ++ after.queue).Perm after.pending) : Sound after flight' := by
  refine ⟨hkeeps.names ▸ h.names_nodup, hkeeps.keys ▸ h.keys_nodup,
    h.pending_nodup.sublist hpending, ?_, hqueue, ?_⟩
  · intro id hid
    rw [hkeeps.length_slots]
    exact h.pending_lt id (hpending.subset hid)
  · intro slot hslot
    obtain ⟨id, hid⟩ := List.mem_iff_getElem?.mp hslot
    obtain ⟨old, hold, hbare⟩ := hkeeps.getElem?_slots hid
    obtain ⟨table, htable, layout, hlayout, hkey⟩ := h.keyed old (List.mem_of_getElem? hold)
    obtain ⟨new, hnew, hbareTable⟩ := hkeeps.getElem?_tables htable
    obtain ⟨hplace, -, hslotKey, hpayload⟩ := Slot.bare_inj.mp hbare
    obtain ⟨hname, -, hlayouts⟩ := Table.bare_inj.mp hbareTable
    refine ⟨new, hplace ▸ hnew, layout, hlayouts ▸ hlayout, ?_⟩
    rw [← hslotKey, hkey, hname, hpayload]

theorem flight_nodup (h : Sound batch flight) : flight.Nodup :=
  (List.nodup_append.mp (h.queue_perm.nodup_iff.mpr h.pending_nodup)).1

theorem mem_pending_of_mem_flight (h : Sound batch flight) {id : Nat} (hid : id ∈ flight) :
    id ∈ batch.pending := h.queue_perm.mem_iff.mp (List.mem_append_left _ hid)

/-- A pending slot is there, with its table. -/
theorem exists_slot (h : Sound batch flight) {id : Nat} (hid : id ∈ batch.pending) :
    ∃ slot table, batch.slots[id]? = some slot ∧ batch.tables[slot.table]? = some table := by
  have hslot := List.getElem?_eq_getElem (h.pending_lt id hid)
  obtain ⟨table, htable, -⟩ := h.keyed _ (List.mem_of_getElem? hslot)
  exact ⟨_, table, hslot, htable⟩

/-- The payload of a slot gives the key of the slot in a layout of its table. -/
theorem exists_layout (h : Sound batch flight) {slot : Slot} (hslot : slot ∈ batch.slots)
    {table : Table} (htable : batch.tables[slot.table]? = some table) :
    ∃ layout ∈ table.layouts, slot.key = layout.identity table.name slot.payload := by
  obtain ⟨own, hown, hlayout⟩ := h.keyed slot hslot
  obtain rfl : own = table := Option.some.inj (hown.symm.trans htable)
  exact hlayout

theorem findPending?_eq_some_iff (h : Sound batch flight) {key : MessagePack.Bytes} {id : Nat} :
    batch.findPending? key = some id ↔
      id ∈ batch.pending ∧ ∃ slot, batch.slots[id]? = some slot ∧ slot.key = key := by
  constructor
  · exact mem_of_findPending?
  · rintro ⟨hid, slot, hslot, rfl⟩
    cases hfound : batch.findPending? slot.key with
    | none => exact absurd rfl (findPending?_eq_none hfound hid hslot)
    | some other =>
      obtain ⟨-, slot', hslot', hkey⟩ := mem_of_findPending? hfound
      exact congrArg some (eq_of_map_eq h.keys_nodup hslot' hslot hkey)

/-- A table is found under its name. -/
theorem findTable?_eq_some (h : Sound batch flight) {place : Nat} {table : Table}
    (htable : batch.tables[place]? = some table) : batch.findTable? table.name = some table := by
  cases hfound : batch.findTable? table.name with
  | none =>
    have := List.find?_eq_none.mp hfound table (List.mem_of_getElem? htable)
    simp at this
  | some other =>
    have hname : other.name = table.name := by simpa using List.find?_some hfound
    have hmem := List.mem_of_find?_eq_some hfound
    rw [List.inj_on_of_nodup_map h.names_nodup hmem (List.mem_of_getElem? htable) hname]

end Sound

/-- The slots of a batch that is only registered are sound. -/
theorem Registered.sound {purpose : Purpose} {consistent : Bool} {orders : List Order}
    {batch : Batch} (h : Registered purpose consistent orders batch) : Sound batch [] := by
  have hfiled := h.filed
  refine ⟨hfiled.names_nodup, hfiled.keys_nodup, ?_, ?_, ?_, ?_⟩
  · rw [hfiled.pending_eq]
    exact List.nodup_range
  · intro id hid
    simpa [hfiled.pending_eq] using hid
  · rw [queue, hfiled.retry_eq]
    exact hfiled.fresh_perm
  · intro slot hslot
    have hholds := hfiled.holds slot hslot
    obtain ⟨filing, hlast, hpayload⟩ := Option.map_eq_some_iff.mp hholds.payload
    obtain ⟨hfiling, hkey⟩ := List.mem_filter.mp (List.mem_of_getLast? hlast)
    obtain ⟨table, htable, hfiledTable⟩ := hholds.table
    replace hkey : filing.key = slot.key := by simpa using hkey
    obtain ⟨hname, hlayout⟩ := hfiledTable filing hfiling hkey
    refine ⟨table, htable, filing.entry.layout, hlayout, ?_⟩
    rw [← hkey, ← hpayload, Filing.key, KeyLayout.identity_inj]
    exact ⟨hname, (values_payload_of_mem_allFilings hfiling).symm⟩

/-! ## Collecting a round -/

theorem perm_append_swap {α : Type} (a b c d : List α) :
    (a ++ b ++ (c ++ d)).Perm (a ++ c ++ (b ++ d)) := by
  rw [List.append_assoc, List.append_assoc]
  exact (List.perm_append_comm_assoc b c d).append_left a

/-- A table without its queue. -/
def Table.drained (table : Table) : Table := { table with fresh := [] }

/-- A sweep takes slots out of the queues of the tables, and changes nothing else. -/
theorem sweep_perm (share room : Nat) (tables : List Table) :
    let (taken, rest) := sweep share room tables
    (taken ++ rest.flatMap Table.fresh).Perm (tables.flatMap Table.fresh) ∧
      rest.map Table.drained = tables.map Table.drained := by
  induction tables generalizing room with
  | nil => exact ⟨List.Perm.refl _, rfl⟩
  | cons table tables ih =>
    obtain ⟨hperm, hdrained⟩ := ih (room - (table.fresh.take (min share room)).length)
    simp only [sweep, List.flatMap_cons, List.map_cons, hdrained]
    refine ⟨?_, rfl⟩
    refine (perm_append_swap _ _ _ _).trans ?_
    rw [List.take_append_drop]
    exact hperm.append_left _

theorem sweeps_perm (share count room : Nat) (tables : List Table) :
    let (taken, rest) := sweeps share count room tables
    (taken ++ rest.flatMap Table.fresh).Perm (tables.flatMap Table.fresh) ∧
      rest.map Table.drained = tables.map Table.drained := by
  induction count generalizing room tables with
  | zero => exact ⟨List.Perm.refl _, rfl⟩
  | succ count ih =>
    obtain ⟨hperm, hdrained⟩ := sweep_perm share room tables
    obtain ⟨hmore, hmoreDrained⟩ :=
      ih (room - (sweep share room tables).1.length) (sweep share room tables).2
    simp only [sweeps]
    refine ⟨?_, hmoreDrained.trans hdrained⟩
    rw [List.append_assoc]
    exact (hmore.append_left _).trans hperm

/-- What a round leaves of the tables: all but their queues. -/
theorem drained_collect (size : Nat) (batch : Batch) :
    (batch.collect size).2.tables.map Table.drained = batch.tables.map Table.drained := by
  let room := size - (batch.retry.take size).length
  let share := max (room / batch.tables.countP fun table => !table.fresh.isEmpty) 1
  exact (sweeps_perm share room room batch.tables).2

/-- A round is taken out of the queues. -/
theorem collect_perm (size : Nat) (batch : Batch) :
    let (round, rest) := batch.collect size
    (round ++ rest.queue).Perm batch.queue ∧ Keeps batch rest ∧ rest.pending = batch.pending ∧
      rest.report = batch.report ∧ rest.slots = batch.slots := by
  let taken := batch.retry.take size
  let room := size - taken.length
  let share := max (room / batch.tables.countP fun table => !table.fresh.isEmpty) 1
  have hperm := (sweeps_perm share room room batch.tables).1
  have hbare := congrArg (List.map Table.bare) (drained_collect size batch)
  rw [List.map_map, List.map_map] at hbare
  refine ⟨?_, ⟨rfl, rfl, rfl, hbare⟩, rfl, rfl, rfl⟩
  show (taken ++ (sweeps share room room batch.tables).1 ++
    (batch.retry.drop size ++ (sweeps share room room batch.tables).2.flatMap Table.fresh)).Perm
      (batch.retry ++ batch.tables.flatMap Table.fresh)
  refine (perm_append_swap _ _ _ _).trans ?_
  rw [List.take_append_drop]
  exact hperm.append_left _

theorem Sound.collect {batch : Batch} (h : Sound batch []) (size : Nat) :
    Sound (batch.collect size).2 (batch.collect size).1 := by
  obtain ⟨hperm, hkeeps, hpending, -, -⟩ := collect_perm size batch
  refine h.of_keeps hkeeps (by rw [hpending]) ?_
  rw [hpending]
  exact hperm.trans h.queue_perm

/-! ## Sending a round -/

/-- Each slot of a round counts one more request. -/
theorem getElem?_countAttempt (batch : Batch) (round : List Nat) (id : Nat) :
    (batch.countAttempt round).slots[id]? = batch.slots[id]?.map fun slot =>
      { slot with attempts := slot.attempts + round.count id } := by
  have hfold : ∀ (round : List Nat) (slots : List Slot),
      (round.foldl (fun slots id =>
        slots.modify id fun slot => { slot with attempts := slot.attempts + 1 }) slots)[id]? =
      slots[id]?.map fun slot => { slot with attempts := slot.attempts + round.count id } := by
    intro round
    induction round with
    | nil => simp
    | cons first round ih =>
      intro slots
      rw [List.foldl_cons, ih, List.getElem?_modify, Option.map_eq_map, Option.map_map,
        List.count_cons]
      refine congrArg (fun f => Option.map f slots[id]?) (funext fun slot => ?_)
      by_cases hid : first = id
      · simp [hid, Nat.add_assoc, Nat.add_comm 1]
      · simp [hid]
  exact hfold round batch.slots

theorem keeps_countAttempt (batch : Batch) (round : List Nat) :
    Keeps batch (batch.countAttempt round) := by
  refine ⟨rfl, rfl, ?_, rfl⟩
  apply List.ext_getElem?
  intro id
  rw [List.getElem?_map, List.getElem?_map, getElem?_countAttempt, Option.map_map]
  rfl

theorem Sound.countAttempt {batch : Batch} {flight : List Nat} (h : Sound batch flight)
    (round : List Nat) : Sound (batch.countAttempt round) flight :=
  h.of_keeps (keeps_countAttempt batch round) (List.Sublist.refl _) h.queue_perm

/-- The next round of at most `size` slots. -/
def round (batch : Batch) (size : Nat) : List Nat := (batch.collect size).1

/-- The batch while the request for its next round is under way. -/
def sent (batch : Batch) (size : Nat) : Batch :=
  (batch.collect size).2.countAttempt (batch.round size)

@[simp] theorem pending_sent (batch : Batch) (size : Nat) :
    (batch.sent size).pending = batch.pending := rfl

theorem getElem?_sent (batch : Batch) (size id : Nat) :
    (batch.sent size).slots[id]? = batch.slots[id]?.map fun slot =>
      { slot with attempts := slot.attempts + (batch.round size).count id } :=
  getElem?_countAttempt (batch.collect size).2 (batch.round size) id

theorem keeps_sent (batch : Batch) (size : Nat) : Keeps batch (batch.sent size) :=
  (collect_perm size batch).2.1.trans (keeps_countAttempt _ _)

theorem Sound.sent {batch : Batch} (h : Sound batch []) (size : Nat) :
    Sound (batch.sent size) (batch.round size) := (h.collect size).countAttempt _

/-- The entry that a slot is sent as: its table and what is written. -/
def entryFor (batch : Batch) (slot : Slot) : String × Write :=
  (batch.tableName slot.table, slot.write batch.purpose)

/-- A request has one entry for each slot of its round. -/
theorem entries_writeInput_perm (batch : Batch) (round : List Nat) :
    (Dict.entries (batch.writeInput round).tables).Perm
      ((batch.slotsOf round).map batch.entryFor) := by
  exact Dict.entries_insertEach_perm (batch.slotsOf round) Dict.sorted_nil

theorem mem_slotsOf {batch : Batch} {round : List Nat} {slot : Slot} :
    slot ∈ batch.slotsOf round ↔ ∃ id ∈ round, batch.slots[id]? = some slot := by
  simp [slotsOf]

/-! ## Replies -/

/-- The slots that the entries of a reply belong to. -/
theorem mem_matched {α : Type} {batch : Batch} {attributes : α → AttributeMap}
    {tables : Dict (List α)} {id : Nat} :
    id ∈ (batch.matched attributes tables).map Prod.fst ↔
      ∃ name entry, (name, entry) ∈ Dict.entries tables ∧ ∃ table,
        batch.findTable? name = some table ∧
          batch.findSlot? table (attributes entry) = some id := by
  constructor
  · intro h
    obtain ⟨⟨_, entry⟩, hmem, rfl⟩ := List.mem_map.mp h
    obtain ⟨⟨name, entries⟩, hentries, hmem⟩ := List.mem_flatMap.mp hmem
    cases hfound : batch.findTable? name with
    | none => simp [hfound] at hmem
    | some table =>
      simp only [hfound, List.mem_filterMap, Option.map_eq_some_iff] at hmem
      obtain ⟨other, hother, id, hid, heq⟩ := hmem
      cases heq
      exact ⟨name, entry, Dict.mem_entries.mpr ⟨entries, hentries, hother⟩, table, hfound, hid⟩
  · rintro ⟨name, entry, hentry, table, hfound, hid⟩
    obtain ⟨entries, hentries, hother⟩ := Dict.mem_entries.mp hentry
    refine List.mem_map.mpr ⟨(id, entry), List.mem_flatMap.mpr ⟨(name, entries), hentries, ?_⟩, rfl⟩
    simp only [hfound, List.mem_filterMap, Option.map_eq_some_iff]
    exact ⟨entry, hother, id, hid, rfl⟩

/-- The pending slots and the queues after a reply, by the slots that it leaves undone. -/
theorem receiveWrites_eq (batch : Batch) (round : List Nat) (reply : BatchWriteReply) :
    let undone := (batch.matched Write.attributes reply.unprocessed).map Prod.fst
    batch.receiveWrites round reply =
      ((round.filter fun id => !undone.contains id).length,
        { batch with
          pending := batch.pending.filter fun id => !round.contains id || undone.contains id
          retry := batch.retry ++ round.filter undone.contains }) := by
  intro undone
  have hpartition : round.partition undone.contains =
      (round.filter undone.contains, round.filter fun id => !undone.contains id) := by
    rw [List.partition_eq_filter_filter]
    rfl
  have hsettled : ∀ id, (round.filter fun id => !undone.contains id).contains id =
      (round.contains id && !undone.contains id) := by
    intro id
    rw [Bool.eq_iff_iff]
    simp
  simp only [receiveWrites, settle, requeue, undone, hpartition, hsettled, Bool.not_and,
    Bool.not_not]

/-- A reply to the request of a round settles its slots but for those that wait for another try. It
    changes neither the slots nor the queues of the tables. -/
structure Settles (round : List Nat) (again : Nat → Bool) (before after : Batch) : Prop where
  keeps : Keeps before after
  slots : after.slots = before.slots
  recorded : before.report.Recorded after.report
  fresh : after.tables.map Table.fresh = before.tables.map Table.fresh
  pending : after.pending = before.pending.filter fun id => !round.contains id || again id
  retry : after.retry = before.retry ++ round.filter again

section Settles

variable {round : List Nat} {again : Nat → Bool} {before after : Batch}

/-- The slots that are pending after a reply: those that were, but for those of the round that do
    not wait for another try. -/
theorem Settles.mem_pending_iff (h : Settles round again before after) {id : Nat} :
    id ∈ after.pending ↔ id ∈ before.pending ∧ (id ∈ round → again id = true) := by
  rw [h.pending, List.mem_filter]
  by_cases hround : id ∈ round <;> simp [hround]

/-- The slots of a round do not wait. -/
theorem Sound.not_mem_round (h : Sound before round) {id : Nat} (hid : id ∈ before.queue) :
    id ∉ round := by
  have hnodup := h.queue_perm.nodup_iff.mpr h.pending_nodup
  intro hround
  exact (List.nodup_append.mp hnodup).2.2 id hround id hid rfl

/-- After a reply, the slots that are not settled wait. -/
theorem Sound.settles (h : Sound before round) (hsettles : Settles round again before after) :
    Sound after [] := by
  refine h.of_keeps hsettles.keeps ?_ ?_
  · rw [hsettles.pending]
    exact List.filter_sublist
  · have hqueue : before.queue.filter (fun id => !round.contains id || again id) =
        before.queue := by
      refine List.filter_eq_self.mpr fun id hid => ?_
      simp [h.not_mem_round hid]
    have hround : round.filter (fun id => !round.contains id || again id) = round.filter again := by
      refine List.filter_congr fun id hid => ?_
      simp [hid]
    have hperm := h.queue_perm.filter fun id => !round.contains id || again id
    rw [List.filter_append, hqueue, hround, ← hsettles.pending] at hperm
    refine List.Perm.trans ?_ hperm
    rw [List.nil_append, queue, queue, List.flatMap_def, List.flatMap_def, hsettles.retry,
      hsettles.fresh, List.append_assoc]
    exact List.perm_append_comm_assoc _ _ _

/-- The slots that are settled are no longer pending, and no others. -/
theorem Sound.length_settles (h : Sound before round)
    (hsettles : Settles round again before after) :
    after.pending.length + (round.filter fun id => !again id).length = before.pending.length := by
  have hqueue : before.queue.filter (fun id => !(!round.contains id || again id)) = [] := by
    refine List.filter_eq_nil_iff.mpr fun id hid => ?_
    simp [h.not_mem_round hid]
  have hround : round.filter (fun id => !(!round.contains id || again id)) =
      round.filter fun id => !again id := by
    refine List.filter_congr fun id hid => ?_
    simp [hid]
  have hperm := h.queue_perm.filter fun id => !(!round.contains id || again id)
  rw [List.filter_append, hqueue, hround, List.append_nil] at hperm
  rw [hsettles.pending, hperm.length_eq]
  exact (List.length_eq_length_filter_add _).symm

end Settles

theorem settles_receiveWrites (batch : Batch) (round : List Nat) (reply : BatchWriteReply) :
    Settles round ((batch.matched Write.attributes reply.unprocessed).map Prod.fst).contains batch
      (batch.receiveWrites round reply).2 := by
  rw [receiveWrites_eq]
  exact ⟨⟨rfl, rfl, rfl, rfl⟩, rfl, .refl, rfl, rfl, rfl⟩

theorem keeps_receiveWrites (batch : Batch) (round : List Nat) (reply : BatchWriteReply) :
    Keeps batch (batch.receiveWrites round reply).2 :=
  (settles_receiveWrites batch round reply).keeps

/-- After a reply, the slots that it leaves undone wait for another try. -/
theorem Sound.receiveWrites {batch : Batch} {round : List Nat} (h : Sound batch round)
    (reply : BatchWriteReply) : Sound (batch.receiveWrites round reply).2 [] :=
  h.settles (settles_receiveWrites batch round reply)

end TableClient.Batch
