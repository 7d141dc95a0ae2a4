import Mathlib
import TableClient.Proofs.Batch.Round

/-!
# Writes that the store left undone

The store echoes the writes that it left undone, and each echoed entry is given back to the pending
slot that the first key layout of the table with a hit finds. That is the slot that was sent as the
entry, unless another pending slot comes before it under an earlier layout: then the other slot is
sent again, and the one that was refused counts as written.

Results:
* `findSlot?_eq_some_iff`: an entry is given back to its slot unless the slot is shadowed.
* `not_shadowed_of_layout`: where all items of a table have one layout, no slot is shadowed.
* `retries_iff_not_shadowed`: when exactly the slots that are echoed are sent again.
-/

namespace TableClient.Batch

open Protocol (Write BatchWriteReply)

/-! ## Entries and slots -/

/-- Another pending slot has the key that the payload of a slot gives in a layout of its table that
    stands before all those that give its own key. -/
def Shadowed (batch : Batch) (id : Nat) : Prop :=
  ∃ slot table, batch.slots[id]? = some slot ∧ batch.tables[slot.table]? = some table ∧
    ∃ before layout after, table.layouts = before ++ layout :: after ∧
      (∀ earlier ∈ before, earlier.identity table.name slot.payload ≠ slot.key) ∧
      ∃ other ∈ batch.pending, other ≠ id ∧
        (batch.slots[other]?).map Slot.key = some (layout.identity table.name slot.payload)

section Sound

variable {batch : Batch} {flight : List Nat} {id : Nat} {slot : Slot} {table : Table}

/-- Under a layout in which the payload of a pending slot gives its key, the slot is found. -/
theorem Sound.findPending?_payload (h : Sound batch flight) (hid : id ∈ batch.pending)
    (hslot : batch.slots[id]? = some slot) {layout : KeyLayout}
    (hkey : layout.identity table.name slot.payload = slot.key) :
    batch.findPending? (layout.identity table.name slot.payload) = some id :=
  h.findPending?_eq_some_iff.mpr ⟨hid, slot, hslot, hkey.symm⟩

/-- The entry of a pending slot is given back to some slot. -/
theorem Sound.exists_findSlot? (h : Sound batch flight) (hid : id ∈ batch.pending)
    (hslot : batch.slots[id]? = some slot) (htable : batch.tables[slot.table]? = some table) :
    ∃ found, batch.findSlot? table slot.payload = some found := by
  obtain ⟨layout, hlayout, hkey⟩ := h.exists_layout (List.mem_of_getElem? hslot) htable
  refine Option.isSome_iff_exists.mp (List.findSome?_isSome_iff.mpr ⟨layout, hlayout, ?_⟩)
  rw [h.findPending?_payload hid hslot hkey.symm]
  rfl

/-- The entry of a pending slot is given back to the slot unless the slot is shadowed. -/
theorem Sound.findSlot?_eq_some_iff (h : Sound batch flight) (hid : id ∈ batch.pending)
    (hslot : batch.slots[id]? = some slot) (htable : batch.tables[slot.table]? = some table) :
    batch.findSlot? table slot.payload = some id ↔ ¬ batch.Shadowed id := by
  constructor
  · rintro hfound ⟨slot', table', hslot', htable', before, layout, after, hlayouts, hbefore,
      other, hother, hne, hkey⟩
    obtain rfl : slot' = slot := Option.some.inj (hslot'.symm.trans hslot)
    obtain rfl : table' = table := Option.some.inj (htable'.symm.trans htable)
    obtain ⟨otherSlot, hotherSlot, hotherKey⟩ := Option.map_eq_some_iff.mp hkey
    have hhitOther : batch.findPending? (layout.identity table'.name slot'.payload) = some other :=
      h.findPending?_eq_some_iff.mpr ⟨hother, otherSlot, hotherSlot, hotherKey⟩
    rw [findSlot?, hlayouts, List.findSome?_append] at hfound
    rcases Option.or_eq_some_iff.mp hfound with hearlier | ⟨-, hlater⟩
    · obtain ⟨earlier, hmem, hhitEarlier⟩ := List.exists_of_findSome?_eq_some hearlier
      obtain ⟨-, own, hownSlot, hownKey⟩ := h.findPending?_eq_some_iff.mp hhitEarlier
      obtain rfl : own = slot' := Option.some.inj (hownSlot.symm.trans hslot)
      exact hbefore earlier hmem hownKey.symm
    · rw [List.findSome?_cons, hhitOther] at hlater
      exact hne (Option.some.inj hlater)
  · intro hclear
    obtain ⟨found, hfound⟩ := h.exists_findSlot? hid hslot htable
    by_contra hne
    apply hclear
    obtain ⟨skipped, hit, rest, hsplit, hfoundHit, hskipped⟩ := List.findSome?_eq_some_iff.mp hfound
    obtain ⟨hpending, other, hother, hkey⟩ := h.findPending?_eq_some_iff.mp hfoundHit
    refine ⟨slot, table, hslot, htable, skipped, hit, rest, hsplit, ?_, found, hpending, ?_, ?_⟩
    · intro earlier hearlier hsame
      have hearlierHit := h.findPending?_payload hid hslot hsame
      exact Option.some_ne_none id (hearlierHit.symm.trans (hskipped earlier hearlier))
    · rintro rfl
      exact hne hfound
    · rw [hother, Option.map_some, hkey]

/-- Where all items of a table have one layout, no slot is shadowed. -/
theorem Sound.not_shadowed_of_layout (h : Sound batch flight)
    (hlayouts : ∀ table ∈ batch.tables, ∃ primary, ∀ layout ∈ table.layouts, layout = primary) :
    ¬ batch.Shadowed id := by
  rintro ⟨slot, table, hslot, htable, before, layout, after, hsplit, -, other, -, hne, hkey⟩
  obtain ⟨primary, hprimary⟩ := hlayouts table (List.mem_of_getElem? htable)
  obtain ⟨own, hown, hownKey⟩ := h.exists_layout (List.mem_of_getElem? hslot) htable
  have hlayout : layout ∈ table.layouts := by simp [hsplit]
  obtain ⟨otherSlot, hotherSlot, hotherKey⟩ := Option.map_eq_some_iff.mp hkey
  apply hne
  apply eq_of_map_eq h.keys_nodup hotherSlot hslot
  rw [hotherKey, hownKey, hprimary layout hlayout, hprimary own hown]

end Sound

/-! ## Echoes -/

/-- Every entry that a reply leaves undone is an entry of the request of the round. -/
def Echoes (batch : Batch) (round : List Nat) (reply : BatchWriteReply) : Prop :=
  ∀ entry ∈ Dict.entries reply.unprocessed, entry ∈ Dict.entries (batch.writeInput round).tables

/-- Whether the entry that a slot is sent as is one that a reply leaves undone. -/
def echoed (batch : Batch) (reply : BatchWriteReply) (id : Nat) : Bool :=
  (batch.slots[id]?).any fun slot => batch.entryFor slot ∈ Dict.entries reply.unprocessed

/-- Exactly the slots of a round whose entries are echoed wait for another try; the others of the
    round, and no slots but these, are settled. -/
def Retries (batch : Batch) (round : List Nat) (reply : BatchWriteReply) : Prop :=
  let after := (batch.receiveWrites round reply).2
  after.retry = batch.retry ++ round.filter (batch.echoed reply) ∧
    after.pending = batch.pending.filter fun id => !round.contains id || batch.echoed reply id

instance (batch : Batch) (round : List Nat) (reply : BatchWriteReply) :
    Decidable (batch.Echoes round reply) :=
  inferInstanceAs (Decidable (∀ entry ∈ _, _))

instance (batch : Batch) (round : List Nat) (reply : BatchWriteReply) :
    Decidable (batch.Retries round reply) :=
  inferInstanceAs (Decidable (_ ∧ _))

theorem echoed_iff {batch : Batch} {reply : BatchWriteReply} {id : Nat} :
    batch.echoed reply id = true ↔ ∃ slot, batch.slots[id]? = some slot ∧
      batch.entryFor slot ∈ Dict.entries reply.unprocessed := by
  simp [echoed, Option.any_eq_true]

theorem attributes_write (purpose : Purpose) (slot : Slot) :
    (slot.write purpose).attributes = slot.payload := by
  unfold Slot.write
  split_ifs <;> rfl

section Reply

variable {batch : Batch} {round : List Nat}

/-- The entry of a slot that is not shadowed is given back to the slot, and no other entry is. -/
theorem Sound.mem_undone_iff (h : Sound batch round) (hclear : ∀ id ∈ round, ¬ batch.Shadowed id)
    {reply : BatchWriteReply} (hreply : batch.Echoes round reply) {id : Nat} (hid : id ∈ round) :
    id ∈ (batch.matched Write.attributes reply.unprocessed).map Prod.fst ↔
      batch.echoed reply id = true := by
  have hback : ∀ {other : Nat} {slot : Slot}, other ∈ round → batch.slots[other]? = some slot →
      ∃ table, batch.findTable? (batch.tableName slot.table) = some table ∧
        batch.findSlot? table slot.payload = some other := by
    intro other slot hother hslot
    have hpending := h.mem_pending_of_mem_flight hother
    obtain ⟨slot', table, hslot', htable⟩ := h.exists_slot hpending
    obtain rfl : slot' = slot := Option.some.inj (hslot'.symm.trans hslot)
    refine ⟨table, ?_, (h.findSlot?_eq_some_iff hpending hslot htable).mpr (hclear other hother)⟩
    rw [tableName, htable]
    exact h.findTable?_eq_some htable
  rw [mem_matched]
  constructor
  · rintro ⟨name, write, hentry, table, htable, hfound⟩
    have hsent := (entries_writeInput_perm batch round).mem_iff.mp (hreply _ hentry)
    obtain ⟨slot, hslotMem, hslotEntry⟩ := List.mem_map.mp hsent
    obtain ⟨other, hother, hslot⟩ := mem_slotsOf.mp hslotMem
    obtain ⟨rfl, rfl⟩ := Prod.mk.inj hslotEntry
    obtain ⟨table', htable', hfound'⟩ := hback hother hslot
    obtain rfl : table' = table := Option.some.inj (htable'.symm.trans htable)
    rw [attributes_write, hfound'] at hfound
    obtain rfl := Option.some.inj hfound
    exact echoed_iff.mpr ⟨slot, hslot, hentry⟩
  · intro hechoed
    obtain ⟨slot, hslot, hentry⟩ := echoed_iff.mp hechoed
    obtain ⟨table, htable, hfound⟩ := hback hid hslot
    refine ⟨_, _, hentry, table, htable, ?_⟩
    rw [attributes_write, hfound]

/-- Exactly the slots that are echoed wait for another try, if none of the round is shadowed. -/
theorem Sound.retries (h : Sound batch round) (hclear : ∀ id ∈ round, ¬ batch.Shadowed id)
    {reply : BatchWriteReply} (hreply : batch.Echoes round reply) : batch.Retries round reply := by
  have hundone : ∀ id ∈ round,
      ((batch.matched Write.attributes reply.unprocessed).map Prod.fst).contains id =
        batch.echoed reply id := by
    intro id hid
    rw [Bool.eq_iff_iff, List.contains_iff_mem]
    exact h.mem_undone_iff hclear hreply hid
  rw [Retries, receiveWrites_eq]
  refine ⟨?_, ?_⟩
  · exact congrArg (batch.retry ++ ·) (List.filter_congr hundone)
  · refine List.filter_congr fun id _ => ?_
    by_cases hid : id ∈ round
    · rw [hundone id hid]
    · simp [hid]

/-- If the entry of a shadowed slot is all that is echoed, the slot is settled. -/
theorem Sound.not_retries (h : Sound batch round) {id : Nat} (hid : id ∈ round)
    (hshadowed : batch.Shadowed id) :
    ∃ reply, batch.Echoes round reply ∧ ¬ batch.Retries round reply := by
  have hpending := h.mem_pending_of_mem_flight hid
  obtain ⟨slot, table, hslot, htable⟩ := h.exists_slot hpending
  let write := slot.write batch.purpose
  let reply : BatchWriteReply := ⟨[(table.name, [write])]⟩
  have hname : batch.tableName slot.table = table.name := by rw [tableName, htable]; rfl
  have hentries : Dict.entries reply.unprocessed = [batch.entryFor slot] := by
    rw [entryFor, hname]
    rfl
  refine ⟨reply, ?_, ?_⟩
  · intro entry hentry
    rw [hentries, List.mem_singleton] at hentry
    refine (entries_writeInput_perm batch round).mem_iff.mpr ?_
    exact hentry ▸ List.mem_map_of_mem (mem_slotsOf.mpr ⟨id, hid, hslot⟩)
  · rintro ⟨hretry, -⟩
    rw [receiveWrites_eq] at hretry
    have hechoed : id ∈ round.filter (batch.echoed reply) := by
      refine List.mem_filter.mpr ⟨hid, echoed_iff.mpr ⟨slot, hslot, ?_⟩⟩
      rw [hentries]
      exact List.mem_singleton_self _
    rw [← List.append_cancel_left hretry] at hechoed
    have hundone := List.contains_iff_mem.mp (List.mem_filter.mp hechoed).2
    obtain ⟨name, other, hentry, table', htable', hfound⟩ := mem_matched.mp hundone
    rw [hentries, List.mem_singleton, entryFor, hname] at hentry
    obtain ⟨rfl, rfl⟩ := Prod.mk.inj hentry
    obtain rfl : table' = table :=
      Option.some.inj (htable'.symm.trans (h.findTable?_eq_some htable))
    rw [attributes_write] at hfound
    exact (h.findSlot?_eq_some_iff hpending hslot htable).mp hfound hshadowed

end Reply

/-! ## Batches under way -/

/-- A round of at most `size` slots with the reply to its request. -/
def writeRound (batch : Batch) (size : Nat) (reply : BatchWriteReply) : Batch :=
  ((batch.sent size).receiveWrites (batch.round size) reply).2

/-- A batch that writes, after any number of rounds. -/
inductive Reached (purpose : Purpose) (consistent : Bool) (orders : List Order) : Batch → Prop
  | registered {batch : Batch} (h : Registered purpose consistent orders batch) :
      Reached purpose consistent orders batch
  | round {batch : Batch} (h : Reached purpose consistent orders batch) (size : Nat)
      (reply : BatchWriteReply) : Reached purpose consistent orders (batch.writeRound size reply)

theorem keeps_writeRound (batch : Batch) (size : Nat) (reply : BatchWriteReply) :
    Keeps batch (batch.writeRound size reply) :=
  (batch.keeps_sent size).trans (keeps_receiveWrites _ _ reply)

theorem Reached.sound {purpose : Purpose} {consistent : Bool} {orders : List Order} {batch : Batch}
    (h : Reached purpose consistent orders batch) : Sound batch [] := by
  induction h with
  | registered h => exact h.sound
  | round h size reply ih => exact (ih.sent size).receiveWrites reply

/-- A batch under way has the purpose that it was made for, and no fault. -/
theorem Reached.frame {purpose : Purpose} {consistent : Bool} {orders : List Order} {batch : Batch}
    (h : Reached purpose consistent orders batch) :
    batch.purpose = purpose ∧ batch.fault? = none := by
  induction h with
  | registered h => exact ⟨h.frame.1, h.frame.2.1⟩
  | @round batch h size reply ih =>
    have hkeeps := batch.keeps_writeRound size reply
    exact ⟨hkeeps.purpose.trans ih.1, hkeeps.fault?.trans ih.2⟩

/-- Whatever a store echoes of a round, exactly the slots whose entries are echoed are sent again:
    this holds for a round exactly when none of its slots is shadowed. -/
theorem retries_iff_not_shadowed {purpose : Purpose} {consistent : Bool} {orders : List Order}
    {batch : Batch} (h : Reached purpose consistent orders batch) (size : Nat) :
    (∀ reply, (batch.sent size).Echoes (batch.round size) reply →
      (batch.sent size).Retries (batch.round size) reply) ↔
        ∀ id ∈ batch.round size, ¬ (batch.sent size).Shadowed id := by
  have hsent := h.sound.sent size
  constructor
  · intro hretries id hid hshadowed
    obtain ⟨reply, hreply, hnot⟩ := hsent.not_retries hid hshadowed
    exact hnot (hretries reply hreply)
  · intro hclear reply hreply
    exact hsent.retries hclear hreply

/-- Two items of a type that declares its key. -/
def declaredItems : Order where
  table := "T"
  type := ⟨"item", some { primary := .ofHash "id" }, some⟩
  items := [.object [("id", .string "x")], .object [("id", .string "y")]]

/-- The batch that stores the two items. -/
def declaredBatch : Batch :=
  (register { purpose := .put } declaredItems.cache declaredItems.table declaredItems.type
    declaredItems.items).1

/-- Both items are sent, and whichever of them is echoed is sent again. -/
theorem retries_declaredItems :
    Reached .put false [declaredItems] declaredBatch ∧ declaredBatch.round 25 = [0, 1] ∧
      ∀ reply, (declaredBatch.sent 25).Echoes (declaredBatch.round 25) reply →
        (declaredBatch.sent 25).Retries (declaredBatch.round 25) reply := by
  have hbatch : Reached .put false [declaredItems] declaredBatch :=
    .registered (.snoc .empty declaredItems fun _ h => absurd h List.not_mem_nil)
  refine ⟨hbatch, by decide, (retries_iff_not_shadowed hbatch 25).mpr fun id hid => ?_⟩
  refine (hbatch.sound.sent 25).not_shadowed_of_layout fun table htable => ⟨.ofHash "id", ?_⟩
  revert table
  decide

/-- Two documents, of which the second has the attributes of the first and one more. -/
def extended : Order where
  table := "T"
  type := ⟨"document", none, some⟩
  items := [.object [("a", .string "x")], .object [("a", .string "x"), ("b", .string "y")]]

/-- The batch that stores the two documents. -/
def extendedBatch : Batch :=
  (register { purpose := .put } extended.cache extended.table extended.type extended.items).1

/-- The store refuses the second document only, but the first is sent again and the second is
    settled. -/
theorem not_retries_extended :
    let sent := extendedBatch.sent 25
    let reply : BatchWriteReply := ⟨[("T", [.put [("a", .string "x"), ("b", .string "y")]])]⟩
    extendedBatch.round 25 = [0, 1] ∧ sent.Echoes [0, 1] reply ∧ sent.echoed reply 0 = false ∧
      sent.echoed reply 1 = true ∧ (sent.receiveWrites [0, 1] reply).2.retry = [0] ∧
      (sent.receiveWrites [0, 1] reply).2.pending = [0] ∧ ¬ sent.Retries [0, 1] reply := by
  decide

end TableClient.Batch
