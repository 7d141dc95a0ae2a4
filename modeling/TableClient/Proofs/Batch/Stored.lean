import Mathlib
import TableClient.Proofs.Batch.Report
import TableClient.Proofs.Batch.Run
import TableClient.Proofs.Store

/-!
# What a batch of puts has stored

While a batch of puts runs, the rows of the slots that are settled hold the items of the slots, and
all other rows are as they were before. Each slot has counted the requests that carried its row.

Results:
* `Stored.receive`: a round and its reply keep this so.
* `stored_of_run`: it is so at the end of a run.
* `Stored.finish_slot`: what the end of the batch reports for the items of a slot.
-/

namespace TableClient.Batch

open Protocol (Write BatchWriteReply)

/-! ## Slots and rows -/

/-- All items of a table have the layout of the table. -/
def LaidOut (layouts : String → KeyLayout) (batch : Batch) : Prop :=
  ∀ table ∈ batch.tables, ∀ layout ∈ table.layouts, layout = layouts table.name

/-- The row that a slot is written to. -/
def rowFor (layouts : String → KeyLayout) (batch : Batch) (slot : Slot) : Row :=
  rowOf layouts (batch.entryFor slot)

section Sound

variable {layouts : String → KeyLayout} {batch before after : Batch} {flight : List Nat}

theorem LaidOut.of_keeps (h : LaidOut layouts before) (hkeeps : Keeps before after) :
    LaidOut layouts after := by
  intro table htable layout hlayout
  obtain ⟨place, hplace⟩ := List.mem_iff_getElem?.mp htable
  obtain ⟨old, hold, hbare⟩ := hkeeps.symm.getElem?_tables hplace
  obtain ⟨hname, -, hlayouts⟩ := Table.bare_inj.mp hbare
  rw [← hname]
  exact h old (List.mem_of_getElem? hold) layout (hlayouts ▸ hlayout)

/-- A slot has the key that its payload gives in the layout of its table. -/
theorem Sound.key_eq (h : Sound batch flight) (hlaid : LaidOut layouts batch) {slot : Slot}
    (hslot : slot ∈ batch.slots) :
    slot.key = (layouts (batch.tableName slot.table)).identity (batch.tableName slot.table)
      slot.payload := by
  obtain ⟨table, htable, layout, hlayout, hkey⟩ := h.keyed slot hslot
  obtain rfl := hlaid table (List.mem_of_getElem? htable) layout hlayout
  rw [tableName, htable]
  exact hkey

theorem rowFor_eq (layouts : String → KeyLayout) (batch : Batch) (slot : Slot) :
    batch.rowFor layouts slot = (batch.tableName slot.table,
      (layouts (batch.tableName slot.table)).values slot.payload) := by
  rw [rowFor, rowOf, entryFor, attributes_write]

/-- Slots that are written to the same row are the same slot. -/
theorem Sound.eq_of_rowFor_eq (h : Sound batch flight) (hlaid : LaidOut layouts batch) {i j : Nat}
    {slot other : Slot} (hi : batch.slots[i]? = some slot) (hj : batch.slots[j]? = some other)
    (hrow : batch.rowFor layouts slot = batch.rowFor layouts other) : i = j := by
  apply eq_of_map_eq h.keys_nodup hi hj
  rw [rowFor_eq, rowFor_eq, Prod.mk.injEq] at hrow
  rw [h.key_eq hlaid (List.mem_of_getElem? hi), h.key_eq hlaid (List.mem_of_getElem? hj),
    KeyLayout.identity_inj]
  exact hrow

/-- The entry of a slot does not depend on how often the slot was sent. -/
theorem Keeps.entryFor_eq (h : Keeps before after) (id : Nat) :
    (after.slots[id]?).map after.entryFor = (before.slots[id]?).map before.entryFor := by
  have hslots := congrArg (fun slots => (slots[id]?).map before.entryFor) h.slots
  simp only [List.getElem?_map, Option.map_map] at hslots
  have hafter : after.entryFor = before.entryFor ∘ Slot.bare := by
    funext slot
    show (after.tableName slot.table, slot.write after.purpose) =
      (before.tableName slot.table, slot.write before.purpose)
    rw [h.tableName, h.purpose]
  rw [hafter]
  exact hslots

theorem map_slotsOf (batch : Batch) (round : List Nat) :
    (batch.slotsOf round).map batch.entryFor =
      round.filterMap fun id => (batch.slots[id]?).map batch.entryFor := by
  rw [slotsOf, List.map_filterMap]

theorem Keeps.entries_eq (h : Keeps before after) (round : List Nat) :
    (after.slotsOf round).map after.entryFor = (before.slotsOf round).map before.entryFor := by
  rw [map_slotsOf, map_slotsOf]
  exact List.filterMap_congr fun id _ => h.entryFor_eq id

theorem Keeps.echoed_eq (h : Keeps before after) (reply : BatchWriteReply) :
    after.echoed reply = before.echoed reply := by
  funext id
  have hentry := congrArg (Option.any (· ∈ Dict.entries reply.unprocessed)) (h.entryFor_eq id)
  rw [Option.any_map, Option.any_map] at hentry
  exact hentry

/-- The slots of a round are sent as different entries. -/
theorem Sound.nodup_entries (h : Sound batch flight) (hlaid : LaidOut layouts batch)
    {round : List Nat} (hround : round.Nodup) :
    ((batch.slotsOf round).map batch.entryFor).Nodup := by
  rw [map_slotsOf]
  refine hround.filterMap fun i j entry hi hj => ?_
  obtain ⟨slot, hslot, hentry⟩ := Option.map_eq_some_iff.mp hi
  obtain ⟨other, hother, hsame⟩ := Option.map_eq_some_iff.mp hj
  exact h.eq_of_rowFor_eq hlaid hslot hother (congrArg (rowOf layouts) (hentry.trans hsame.symm))

end Sound

/-! ## Rounds -/

/-- What has been stored, once `sent` was sent from `start` and `rows` on: settled slots hold their
    items, and all other rows are as they were. -/
structure Stored (layouts : String → KeyLayout) (start : Batch) (rows : Rows)
    (sent : List Request) (batch : Batch) (now : Rows) : Prop where
  keeps : Keeps start batch
  sound : Sound batch []
  report : batch.report = start.report
  attempts : ∀ (id : Nat) (slot current : Slot), start.slots[id]? = some slot →
    batch.slots[id]? = some current →
      current.attempts = sent.countP (·.carries layouts (start.rowFor layouts slot))
  pending : ∀ (id : Nat) (slot : Slot), start.slots[id]? = some slot → id ∈ batch.pending →
    now (start.rowFor layouts slot) = rows (start.rowFor layouts slot)
  settled : ∀ (id : Nat) (slot : Slot), start.slots[id]? = some slot → id ∉ batch.pending →
    now (start.rowFor layouts slot) = some slot.payload
  others : ∀ row, (∀ slot ∈ start.slots, start.rowFor layouts slot ≠ row) → now row = rows row

section Round

variable {layouts : String → KeyLayout} {start : Batch} {rows now now' : Rows}
  {sent : List Request} {batch : Batch}

/-- The entries of a request are those of the slots of its round. -/
theorem Stored.entries_perm (h : Stored layouts start rows sent batch now) (size : Nat) :
    let round := batch.round size
    (Dict.entries ((batch.sent size).writeInput round).tables).Perm
      ((start.slotsOf round).map start.entryFor) := by
  intro round
  have hkeeps := h.keeps.trans (batch.keeps_sent size)
  rw [← hkeeps.entries_eq]
  exact entries_writeInput_perm _ _

/-- A request carries the rows of the slots of its round, and no others. -/
theorem Stored.carries_iff (h : Stored layouts start rows sent batch now)
    (hlaid : LaidOut layouts start) (hstart : Sound start []) (size : Nat) {id : Nat} {slot : Slot}
    (hslot : start.slots[id]? = some slot) :
    let request : Request :=
      .batchWrite ((batch.sent size).writeInput (batch.round size))
    request.carries layouts (start.rowFor layouts slot) = true ↔ id ∈ batch.round size := by
  intro request
  have hperm := h.entries_perm size
  rw [Rows.carries_iff]
  constructor
  · rintro ⟨entry, hentry, hrow⟩
    obtain ⟨other, hother, rfl⟩ := List.mem_map.mp (hperm.mem_iff.mp hentry)
    obtain ⟨otherId, hround, hotherSlot⟩ := mem_slotsOf.mp hother
    obtain rfl := hstart.eq_of_rowFor_eq hlaid hotherSlot hslot hrow
    exact hround
  · intro hround
    refine ⟨start.entryFor slot, hperm.mem_iff.mpr ?_, rfl⟩
    exact List.mem_map_of_mem (mem_slotsOf.mpr ⟨id, hround, hslot⟩)

/-- The rows after the part of a request that was done. -/
theorem Stored.writeAll_eq (h : Stored layouts start rows sent batch now)
    (hlaid : LaidOut layouts start) (hstart : Sound start []) (hput : start.purpose = .put)
    (size : Nat) {reply : BatchWriteReply} {done : List (String × Write)}
    (hpart : (done ++ Dict.entries reply.unprocessed).Perm
      (Dict.entries ((batch.sent size).writeInput (batch.round size)).tables))
    {id : Nat} {slot : Slot} (hslot : start.slots[id]? = some slot) :
    now.writeAll layouts done (start.rowFor layouts slot) =
      if id ∈ batch.round size ∧ start.echoed reply id = false then some slot.payload
      else now (start.rowFor layouts slot) := by
  have hperm := hpart.trans (h.entries_perm size)
  have hnodup := hperm.nodup_iff.mpr
    (hstart.nodup_entries hlaid (h.sound.sent size).flight_nodup)
  -- an entry that was done for the row of the slot is the entry of the slot
  have hown : ∀ entry ∈ done, rowOf layouts entry = start.rowFor layouts slot →
      id ∈ batch.round size ∧ entry = start.entryFor slot := by
    intro entry hentry hrow
    have hmem := hperm.mem_iff.mp (List.mem_append_left _ hentry)
    obtain ⟨other, hother, rfl⟩ := List.mem_map.mp hmem
    obtain ⟨otherId, hround, hotherSlot⟩ := mem_slotsOf.mp hother
    obtain rfl := hstart.eq_of_rowFor_eq hlaid hotherSlot hslot hrow
    obtain rfl : other = slot := Option.some.inj (hotherSlot.symm.trans hslot)
    exact ⟨hround, rfl⟩
  split_ifs with hdone
  · obtain ⟨hround, hechoed⟩ := hdone
    have hmem : start.entryFor slot ∈ done ++ Dict.entries reply.unprocessed :=
      hperm.mem_iff.mpr (List.mem_map_of_mem (mem_slotsOf.mpr ⟨id, hround, hslot⟩))
    rcases List.mem_append.mp hmem with hentry | hundone
    · refine (Rows.writeAll_of_unique hentry fun other hother hrow => ?_).trans ?_
      · exact (hown other hother hrow).2
      · show Rows.written? (slot.write start.purpose) = some slot.payload
        rw [Slot.write, if_pos hput]
        rfl
    · have := echoed_iff.mpr ⟨slot, hslot, hundone⟩
      rw [hechoed] at this
      cases this
  · refine Rows.writeAll_of_not_mem fun entry hentry hrow => ?_
    obtain ⟨hround, rfl⟩ := hown entry hentry hrow
    have hechoed : start.echoed reply id = true := by
      by_contra hnot
      exact hdone ⟨hround, by simpa using hnot⟩
    obtain ⟨slot', hslot', hundone⟩ := echoed_iff.mp hechoed
    obtain rfl : slot' = slot := Option.some.inj (hslot'.symm.trans hslot)
    exact (List.nodup_append.mp hnodup).2.2 _ hentry _ hundone rfl

/-- The slots that are pending after a round: those that were, but for those of the round that are
    not echoed. -/
theorem Stored.mem_pending_writeRound (h : Stored layouts start rows sent batch now)
    (hlaid : LaidOut layouts start) (size : Nat) {reply : BatchWriteReply}
    (hechoes : (batch.sent size).Echoes (batch.round size) reply) (id : Nat) :
    id ∈ (batch.writeRound size reply).pending ↔
      id ∈ batch.pending ∧ (id ∈ batch.round size → start.echoed reply id = true) := by
  have hsent := h.sound.sent size
  have hkeeps := h.keeps.trans (batch.keeps_sent size)
  have hclear : ∀ id ∈ batch.round size, ¬ (batch.sent size).Shadowed id := by
    intro id hid
    exact hsent.not_shadowed_of_layout fun table htable =>
      ⟨layouts table.name, hlaid.of_keeps hkeeps table htable⟩
  have hpending : (batch.sent size).pending = batch.pending := (collect_perm size batch).2.2.1
  rw [writeRound, (hsent.retries hclear hechoes).2, hpending, hkeeps.echoed_eq, List.mem_filter]
  refine and_congr_right fun _ => ?_
  by_cases hround : id ∈ batch.round size <;> simp [hround]

/-- A slot has counted one more request after a round exactly if it is a slot of the round. -/
theorem getElem?_writeRound (batch : Batch) (size : Nat) (reply : BatchWriteReply) (id : Nat) :
    (batch.writeRound size reply).slots[id]? = batch.slots[id]?.map fun slot =>
      { slot with attempts := slot.attempts + (batch.round size).count id } := by
  rw [writeRound, receiveWrites_eq]
  show (batch.sent size).slots[id]? = _
  rw [sent, getElem?_countAttempt]
  rfl

theorem writeRound_report (batch : Batch) (size : Nat) (reply : BatchWriteReply) :
    (batch.writeRound size reply).report = batch.report := by
  rw [writeRound, receiveWrites_eq]
  rfl

/-- A round and its reply keep what has been stored in step. -/
theorem Stored.receive (h : Stored layouts start rows sent batch now)
    (hlaid : LaidOut layouts start) (hstart : Sound start []) (hput : start.purpose = .put)
    (size : Nat) {reply : BatchWriteReply} {done : List (String × Write)}
    (hpart : (done ++ Dict.entries reply.unprocessed).Perm
      (Dict.entries ((batch.sent size).writeInput (batch.round size)).tables)) :
    Stored layouts start rows
      (sent ++ [.batchWrite ((batch.sent size).writeInput (batch.round size))])
      (batch.writeRound size reply) (now.writeAll layouts done) := by
  have hsent := h.sound.sent size
  have hechoes : (batch.sent size).Echoes (batch.round size) reply := fun entry hentry =>
    hpart.mem_iff.mp (List.mem_append_right _ hentry)
  have hpending := h.mem_pending_writeRound hlaid size hechoes
  refine ⟨h.keeps.trans (batch.keeps_writeRound size reply), hsent.receiveWrites reply,
    (batch.writeRound_report size reply).trans h.report, ?_, ?_, ?_, ?_⟩
  · intro id slot current hslot hcurrent
    rw [getElem?_writeRound] at hcurrent
    obtain ⟨old, hold, rfl⟩ := Option.map_eq_some_iff.mp hcurrent
    have hcarries := h.carries_iff hlaid hstart size hslot
    rw [List.countP_append, ← h.attempts id slot old hslot hold, List.countP_singleton]
    by_cases hround : id ∈ batch.round size
    · rw [if_pos (hcarries.mpr hround), List.count_eq_one_of_mem hsent.flight_nodup hround]
    · rw [if_neg fun hcarried => hround (hcarries.mp hcarried), List.count_eq_zero.mpr hround]
  · intro id slot hslot hid
    obtain ⟨hold, hechoed⟩ := (hpending id).mp hid
    rw [h.writeAll_eq hlaid hstart hput size hpart hslot, if_neg]
    · exact h.pending id slot hslot hold
    · rintro ⟨hround, hnot⟩
      rw [hechoed hround] at hnot
      cases hnot
  · intro id slot hslot hid
    rw [h.writeAll_eq hlaid hstart hput size hpart hslot]
    split_ifs with hdone
    · rfl
    · refine h.settled id slot hslot fun hold => hid ((hpending id).mpr ⟨hold, fun hround => ?_⟩)
      by_contra hnot
      exact hdone ⟨hround, by simpa using hnot⟩
  · intro row hrow
    refine (Rows.writeAll_of_not_mem fun entry hentry => ?_).trans (h.others row hrow)
    have hmem := (hpart.trans (h.entries_perm size)).mem_iff.mp (List.mem_append_left _ hentry)
    obtain ⟨slot, hslot, rfl⟩ := List.mem_map.mp hmem
    obtain ⟨id, -, hid⟩ := mem_slotsOf.mp hslot
    exact hrow slot (List.mem_of_getElem? hid)

end Round

/-! ## Runs -/

section Run

variable {layouts : String → KeyLayout} {consistent : Bool} {orders : List Order}
  {start batch : Batch} {rows rows' now : Rows} {requests sent : List Request}

theorem Registered.stored (h : Registered .put consistent orders start) :
    Stored layouts start rows [] start rows := by
  have hfiled := h.filed
  refine ⟨.refl start, h.sound, rfl, ?_, fun _ _ _ _ => rfl, ?_, fun _ _ => rfl⟩
  · intro id slot current hslot hcurrent
    obtain rfl : slot = current := Option.some.inj (hslot.symm.trans hcurrent)
    exact (hfiled.holds slot (List.mem_of_getElem? hslot)).attempts
  · intro id slot hslot hid
    have hlt := (List.getElem?_eq_some_iff.mp hslot).1
    rw [hfiled.pending_eq, List.mem_range] at hid
    exact absurd hlt hid

/-- A turn keeps what has been stored in step, unless it ends with the failure of a request. -/
theorem Stored.turn (h : Stored layouts start rows sent batch now) (hlaid : LaidOut layouts start)
    (hstart : Registered .put consistent orders start) {config : Config} {stalled : Nat}
    {next : Next Running (Except Error Unit × Batch)} {now' : Rows}
    (hturn : Turn (Rows.Serves layouts) (run config) ⟨batch, stalled⟩ now requests next now') :
    (∃ state : Running, next.state? = some state ∧
        Stored layouts start rows (sent ++ requests) state.batch now') ∨
      (∃ last : Batch, next = .done last.finish ∧
        Stored layouts start rows (sent ++ requests) last now') ∨
      ∃ cause last, next = .done (.error (.transport .batchWrite cause), last) := by
  obtain ⟨hput, hfault, -⟩ := hstart.frame
  have hpurpose : batch.purpose ≠ .get := by rw [h.keeps.purpose, hput]; decide
  rcases turn_run (h.keeps.fault?.trans hfault) hpurpose hturn with
    ⟨rfl, rfl, rfl⟩ | ⟨reply, rfl, hserve, rfl⟩
  · rw [List.append_nil]
    exact Or.inr (Or.inl ⟨batch, rfl, h⟩)
  · rcases takeReply_cases config stalled _ _ reply with ⟨answer, hanswer, hnext⟩ | ⟨cause, hnext⟩
    · have hstored : Stored layouts start rows (sent ++ [.batchWrite ((batch.sent
          (roundSize config batch.purpose)).writeInput (batch.round
          (roundSize config batch.purpose)))])
          (batch.writeRound (roundSize config batch.purpose) answer) now' := by
        cases hserve with
        | wrote hreply hpart =>
          obtain rfl := Except.ok.inj (hanswer.symm.trans hreply)
          exact h.receive hlaid hstart.sound hput _ hpart
        | failed hreply => cases hanswer.symm.trans hreply
      rcases hnext with ⟨stalled', hnext⟩ | hnext
      · exact Or.inl ⟨_, hnext, hstored⟩
      · exact Or.inr (Or.inl ⟨_, hnext, hstored⟩)
    · exact Or.inr (Or.inr ⟨cause, _, hnext⟩)

/-- At the end of a run that no failure of a request ended, what has been stored is in step. -/
theorem stored_of_run (h : Registered .put consistent orders start) (hlaid : LaidOut layouts start)
    {config : Config} {outcome : Except Error Unit} {after : Batch}
    (hrun : Run (Rows.Serves layouts) (run config) ⟨start, 0⟩ rows requests (outcome, after) rows')
    (houtcome : ∀ activity cause, outcome ≠ .error (.transport activity cause)) :
    ∃ last : Batch, Stored layouts start rows requests last rows' ∧
      last.finish = (outcome, after) := by
  let holds (sent : List Request) (state : Running) (now : Rows) : Prop :=
    Stored layouts start rows sent state.batch now
  let post (sent : List Request) (result : Except Error Unit × Batch) (now : Rows) : Prop :=
    (∃ activity cause, result.1 = .error (.transport activity cause)) ∨
      ∃ last : Batch, Stored layouts start rows sent last now ∧ last.finish = result
  have hpost : post ([] ++ requests) (outcome, after) rows' := by
    refine hrun.preserves holds post ?_ ?_ h.stored
    · intro sent state now requests next now' state' hholds hturn hnext
      rcases hholds.turn hlaid h hturn with ⟨state'', hnext', hstored⟩ | ⟨last, rfl, -⟩ |
        ⟨cause, last, rfl⟩
      · obtain rfl := Option.some.inj (hnext'.symm.trans hnext)
        exact hstored
      · cases hnext
      · cases hnext
    · intro sent state now requests result now' hholds hturn
      rcases hholds.turn hlaid h hturn with ⟨state', hnext, -⟩ | ⟨last, hresult, hstored⟩ |
        ⟨cause, last, hresult⟩
      · cases hnext
      · cases hresult
        exact Or.inr ⟨last, hstored, rfl⟩
      · cases hresult
        exact Or.inl ⟨.batchWrite, cause, rfl⟩
  rcases hpost with ⟨activity, cause, hfailed⟩ | hend
  · exact absurd hfailed (houtcome activity cause)
  · exact hend

end Run

/-! ## The end -/

section Finish

variable {layouts : String → KeyLayout} {consistent : Bool} {orders : List Order}
  {start last : Batch} {rows now : Rows} {sent : List Request}

/-- An item is in one slot only. -/
theorem Registered.eq_of_holdsItem {purpose : Purpose}
    (h : Registered purpose consistent orders start) {table : String} {position i j : Nat}
    (hi : start.holdsItem table position i = true) (hj : start.holdsItem table position j = true) :
    i = j := by
  have hfiling : ∀ {id : Nat}, start.holdsItem table position id = true → ∃ slot filing,
      start.slots[id]? = some slot ∧ filing ∈ allFilings purpose orders ∧
        filing.key = slot.key ∧ filing.table = table ∧ filing.position = position := by
    intro id hid
    obtain ⟨slot, hslot, htable, hposition⟩ := holdsItem_iff.mp hid
    have hholds := h.filed.holds slot (List.mem_of_getElem? hslot)
    obtain ⟨filing, hfiling, hkey, hfiled⟩ := hholds.mem_positions.mp hposition
    exact ⟨slot, filing, hslot, hfiling, hkey,
      (hholds.tableName_eq hfiling hkey).symm.trans htable, hfiled⟩
  obtain ⟨slot, filing, hslot, hmem, hkey, htable, hposition⟩ := hfiling hi
  obtain ⟨slot', filing', hslot', hmem', hkey', htable', hposition'⟩ := hfiling hj
  obtain rfl := h.eq_of_mem_allFilings hmem hmem' (htable.trans htable'.symm)
    (hposition.trans hposition'.symm)
  exact eq_of_map_eq h.filed.keys_nodup hslot hslot' (hkey.symm.trans hkey')

theorem Keeps.holdsItem_eq {before after : Batch} (h : Keeps before after) :
    after.holdsItem = before.holdsItem := by
  funext table position id
  have hslots := congrArg (fun slots => (slots[id]?).any fun slot =>
    before.tableName slot.table = table ∧ position ∈ slot.positions) h.slots
  simp only [List.getElem?_map, Option.any_map] at hslots
  rw [holdsItem, h.tableName]
  exact hslots

/-- At the end of a batch a slot has stored its item and reports nothing, or has left its row as it
    was and reports each of its items with the number of requests that carried the row. -/
theorem Stored.finish_slot (h : Stored layouts start rows sent last now)
    (hstart : Registered .put consistent orders start) {id : Nat} {slot : Slot}
    (hslot : start.slots[id]? = some slot) :
    (now (start.rowFor layouts slot) = some slot.payload ∧ ∀ position ∈ slot.positions,
        last.finish.2.report.get? (start.tableName slot.table) position =
          start.report.get? (start.tableName slot.table) position) ∨
      (now (start.rowFor layouts slot) = rows (start.rowFor layouts slot) ∧
        ∀ position ∈ slot.positions,
          last.finish.2.report.get? (start.tableName slot.table) position =
            some (.unprocessed (sent.countP (·.carries layouts (start.rowFor layouts slot))))) := by
  have hholds : ∀ position ∈ slot.positions,
      start.holdsItem (start.tableName slot.table) position id = true := fun position hposition =>
    holdsItem_iff.mpr ⟨slot, hslot, rfl, hposition⟩
  have hunique : ∀ position ∈ slot.positions, ∀ other,
      last.holdsItem (start.tableName slot.table) position other = true → other = id := by
    intro position hposition other hother
    rw [h.keeps.holdsItem_eq] at hother
    exact hstart.eq_of_holdsItem hother (hholds position hposition)
  by_cases hid : id ∈ last.pending
  · right
    refine ⟨h.pending id slot hslot hid, fun position hposition => ?_⟩
    have hlast : last.holdsItem (start.tableName slot.table) position id = true := by
      rw [h.keeps.holdsItem_eq]
      exact hholds position hposition
    obtain ⟨current, -, hcurrent, -⟩ := h.sound.exists_slot hid
    rw [get?_finish_of_pending hid hlast fun other _ => hunique position hposition other, leftover,
      if_neg (by rw [h.keeps.purpose, hstart.frame.1]; decide), hcurrent, Option.map_some,
      Option.getD_some, h.attempts id slot current hslot hcurrent]
  · left
    refine ⟨h.settled id slot hslot hid, fun position hposition => ?_⟩
    rw [get?_finish_of_not_pending, h.report]
    intro other hother
    by_contra hnot
    obtain rfl := hunique position hposition other (by simpa using hnot)
    exact hid hother

end Finish

end TableClient.Batch
