import Mathlib
import TableClient.Proofs.Batch.Report
import TableClient.Proofs.Batch.Stored

/-!
# What a reply delivers

The reply to a round of a batch that reads brings items for the slots of the round. The first item
of each slot is put in the place of every key that shares the slot, or reported where it is none of
the type of the table; the items of a slot that gets no item and is not left undone are reported as
not found. All other items, and the queues, stay as they are.

Results:
* `settles_receiveItems`: the slots that wait for another try after a reply.
* `Sound.cell_receiveItems`: what a reply makes of the items of a slot.
-/

namespace TableClient.Batch

open Protocol (BatchGetReply)

/-! ## What is filled in -/

/-- Only the items of the tables and the report differ. -/
structure Fills (before after : Batch) : Prop where
  keeps : Keeps before after
  slots : after.slots = before.slots
  recorded : before.report.Recorded after.report
  fresh : after.tables.map Table.fresh = before.tables.map Table.fresh
  pending : after.pending = before.pending
  retry : after.retry = before.retry

section Fills

variable {before between after : Batch} {flight round : List Nat} {again : Nat → Bool}

theorem Fills.refl (batch : Batch) : Fills batch batch := ⟨.refl batch, rfl, .refl, rfl, rfl, rfl⟩

theorem Fills.trans (h : Fills before between) (h' : Fills between after) : Fills before after :=
  ⟨h.keeps.trans h'.keeps, h'.slots.trans h.slots, h.recorded.trans h'.recorded,
    h'.fresh.trans h.fresh, h'.pending.trans h.pending, h'.retry.trans h.retry⟩

theorem Sound.fills (h : Sound before flight) (hfills : Fills before after) :
    Sound after flight := by
  refine h.of_keeps hfills.keeps (by rw [hfills.pending]) ?_
  rw [hfills.pending, queue, hfills.retry, List.flatMap_def, hfills.fresh, ← List.flatMap_def]
  exact h.queue_perm

/-- What is filled in before the slots of a round are settled makes no difference to them. -/
theorem Fills.settles (h : Fills before between) (h' : Settles round again between after) :
    Settles round again before after := by
  refine ⟨h.keeps.trans h'.keeps, h'.slots.trans h.slots, h.recorded.trans h'.recorded,
    h'.fresh.trans h.fresh, ?_, ?_⟩
  · rw [h'.pending, h.pending]
  · rw [h'.retry, h.retry]

theorem fills_failSlot (batch : Batch) (error : ItemError) (id : Nat) :
    Fills batch (batch.failSlot error id) := by
  have hrecorded := recorded_failSlot batch error id
  obtain ⟨report, heq⟩ := failSlot_eq batch error id
  rw [heq] at hrecorded ⊢
  exact ⟨⟨rfl, rfl, rfl, rfl⟩, rfl, hrecorded, rfl, rfl, rfl⟩

theorem fills_failEach (batch : Batch) (error : ItemError) (ids : List Nat) :
    Fills batch (ids.foldl (failSlot · error) batch) := by
  induction ids generalizing batch with
  | nil => exact .refl batch
  | cons id ids ih => exact (fills_failSlot batch error id).trans (ih _)

/-- The end of a batch changes nothing but the report. -/
theorem fills_finish (batch : Batch) : Fills batch batch.finish.2 := by
  have hrecorded := recorded_failAll batch batch.pending
  obtain ⟨report, heq⟩ := failAll_eq batch batch.pending
  rw [heq] at hrecorded
  rw [finish_eq, heq]
  exact ⟨⟨rfl, rfl, rfl, rfl⟩, rfl, hrecorded, rfl, rfl, rfl⟩

theorem map_set_of_eq {α β : Type} {f : α → β} {l : List α} {i : Nat} {a b : α}
    (ha : l[i]? = some a) (hsame : f b = f a) : (l.set i b).map f = l.map f := by
  apply List.ext_getElem?
  intro j
  rw [List.getElem?_map, List.getElem?_map, List.getElem?_set]
  split_ifs with hij hlt
  · rw [← hij, ha, Option.map_some, Option.map_some, hsame]
  · rw [← hij, List.getElem?_eq_none (Nat.not_lt.mp hlt)]
  · rfl

theorem fills_deliver (batch : Batch) (id : Nat) (item : AttributeMap) :
    Fills batch (batch.deliver id item) := by
  unfold deliver
  cases batch.slots[id]? with
  | none => exact .refl batch
  | some slot =>
    simp only
    cases htable : batch.tables[slot.table]? with
    | none => exact .refl batch
    | some table =>
      simp only
      cases table.type.decode item with
      | error error => exact fills_failSlot batch _ id
      | ok document =>
        exact ⟨⟨rfl, rfl, rfl, map_set_of_eq htable rfl⟩, rfl, .refl, map_set_of_eq htable rfl, rfl,
          rfl⟩

theorem fills_deliverAll (batch : Batch) (received : List Nat) (found : List (Nat × AttributeMap)) :
    Fills batch (batch.deliverAll received found).2 := by
  induction found generalizing batch received with
  | nil => exact .refl batch
  | cons entry rest ih =>
    rw [deliverAll]
    split_ifs
    · exact ih batch received
    · exact (fills_deliver batch entry.1 entry.2).trans (ih _ _)

end Fills

/-! ## Settled slots -/

/-- The slots that a reply leaves undone. -/
def undone (batch : Batch) (reply : BatchGetReply) : List Nat :=
  (batch.matched id (reply.unprocessed.map fun entry => (entry.1, entry.2.keys))).map Prod.fst

/-- The items that a reply brings, each with the pending slot that it belongs to. -/
def brought (batch : Batch) (reply : BatchGetReply) : List (Nat × AttributeMap) :=
  batch.matched id reply.responses

/-- The items that a reply brings for the slots of a round. -/
def found (batch : Batch) (round : List Nat) (reply : BatchGetReply) : List (Nat × AttributeMap) :=
  (batch.brought reply).filter fun entry => round.contains entry.1

/-- The first item that a reply brings for a slot. -/
def firstFor? (batch : Batch) (reply : BatchGetReply) (id : Nat) : Option AttributeMap :=
  ((batch.brought reply).find? fun entry => entry.1 = id).map Prod.snd

/-- The slots of a round that a reply leaves undone and brings no item for. -/
def again (batch : Batch) (round : List Nat) (reply : BatchGetReply) (id : Nat) : Bool :=
  (batch.undone reply).contains id && !((batch.found round reply).map Prod.fst).contains id

/-- An item is found for a slot of a round if the reply brings one for the slot. -/
theorem contains_found {batch : Batch} {round : List Nat} {id : Nat} (hid : id ∈ round)
    (reply : BatchGetReply) :
    ((batch.found round reply).map Prod.fst).contains id = (batch.firstFor? reply id).isSome := by
  rw [Bool.eq_iff_iff, List.contains_iff_mem, firstFor?, Option.isSome_map, List.find?_isSome]
  simp [found, hid]

/-- The slots that receive an item are those that an item is brought for. -/
theorem mem_deliverAll_fst (batch : Batch) (received : List Nat)
    (found : List (Nat × AttributeMap)) (id : Nat) :
    id ∈ (batch.deliverAll received found).1 ↔ id ∈ received ∨ id ∈ found.map Prod.fst := by
  induction found generalizing batch received with
  | nil => simp [deliverAll]
  | cons entry rest ih =>
    rw [deliverAll]
    split_ifs with hreceived
    · have hmem : entry.1 ∈ received := by simpa using hreceived
      rw [ih, List.map_cons, List.mem_cons]
      constructor
      · exact Or.imp_right Or.inr
      · rintro (h | rfl | h)
        · exact Or.inl h
        · exact Or.inl hmem
        · exact Or.inr h
    · rw [ih, List.map_cons, List.mem_cons, List.mem_append, List.mem_singleton, or_assoc]

/-- A reply delivers the items that it brings, reports the slots of the round that get none and are
    not left undone, and lets the others wait. -/
theorem receiveItems_eq (batch : Batch) (round : List Nat) (reply : BatchGetReply) :
    let settled := round.filter fun id => !batch.again round reply id
    let missing := round.filter fun id =>
      !(batch.undone reply).contains id && !((batch.found round reply).map Prod.fst).contains id
    batch.receiveItems round reply = (settled.length,
      ((missing.foldl (failSlot · .notFound)
        (batch.deliverAll [] (batch.found round reply)).2).settle settled).requeue
          (round.filter (batch.again round reply))) := by
  intro settled missing
  let received := (batch.deliverAll [] (batch.found round reply)).1
  have hreceived : ∀ id, received.contains id =
      ((batch.found round reply).map Prod.fst).contains id := by
    intro id
    rw [Bool.eq_iff_iff, List.contains_iff_mem, List.contains_iff_mem, mem_deliverAll_fst]
    simp
  have hsettled : (round.filter fun id => received.contains id || !(batch.undone reply).contains id)
      = settled := by
    refine List.filter_congr fun id _ => ?_
    rw [hreceived, again, Bool.not_and, Bool.not_not, Bool.or_comm]
  have hagain : (round.filter fun id =>
      !(received.contains id || !(batch.undone reply).contains id)) =
        round.filter (batch.again round reply) := by
    refine List.filter_congr fun id _ => ?_
    rw [hreceived, again, Bool.not_or, Bool.not_not, Bool.and_comm]
  have hmissing : (settled.filter fun id => !received.contains id) = missing := by
    rw [List.filter_filter]
    refine List.filter_congr fun id _ => ?_
    rw [hreceived, again]
    cases (batch.undone reply).contains id <;>
      cases ((batch.found round reply).map Prod.fst).contains id <;> rfl
  have hpartition : round.partition
      (fun id => received.contains id || !(batch.undone reply).contains id) =
        (settled, round.filter (batch.again round reply)) := by
    rw [List.partition_eq_filter_filter, hsettled]
    exact congrArg (Prod.mk settled) hagain
  let receive (split : List Nat × List Nat) : Nat × Batch :=
    (split.1.length, (((split.1.filter fun id => !received.contains id).foldl (failSlot · .notFound)
      (batch.deliverAll [] (batch.found round reply)).2).settle split.1).requeue split.2)
  show receive (round.partition
    fun id => received.contains id || !(batch.undone reply).contains id) = _
  rw [hpartition]
  simp only [receive, hmissing]

/-- The slots of a round that are left undone and get no item wait for another try; the others of
    the round are settled. -/
theorem settles_receiveItems (batch : Batch) (round : List Nat) (reply : BatchGetReply) :
    Settles round (batch.again round reply) batch (batch.receiveItems round reply).2 := by
  rw [receiveItems_eq]
  refine Fills.settles ((fills_deliverAll batch [] (batch.found round reply)).trans
    (fills_failEach _ .notFound _)) ⟨⟨rfl, rfl, rfl, rfl⟩, rfl, .refl, rfl, ?_, rfl⟩
  refine List.filter_congr fun id _ => ?_
  rw [Bool.eq_iff_iff]
  simp

theorem fst_receiveItems (batch : Batch) (round : List Nat) (reply : BatchGetReply) :
    (batch.receiveItems round reply).1 =
      (round.filter fun id => !batch.again round reply id).length := by
  rw [receiveItems_eq]

/-! ## What stands at a position -/

/-- What stands at a position of a table: its item, and the error that is reported there. -/
abbrev Cell := Option Json × Option ItemError

/-- What stands at a position of a table. -/
def cell (batch : Batch) (table : String) (position : Nat) : Cell :=
  ((batch.findTable? table).bind fun found => found.items[position]?,
    batch.report.get? table position)

/-- What stands at a position whose key has received an item. -/
def Cell.receive (type : ItemType) (item : AttributeMap) (old : Cell) : Cell :=
  match type.decode item with
  | .error error => (old.1, some (.codec error))
  | .ok document => (old.1.map fun _ => document, old.2)

/-- What stands at a position that is reported. -/
def Cell.fail (error : ItemError) (old : Cell) : Cell := (old.1, some error)

/-- A round that is taken changes neither the items nor the report. -/
theorem cell_sent (batch : Batch) (size : Nat) (table : String) (position : Nat) :
    (batch.sent size).cell table position = batch.cell table position := by
  have hfind := congrArg (List.find? fun own => own.name = table) (drained_collect size batch)
  simp only [List.find?_map] at hfind
  have hitems := congrArg (Option.bind · fun own : Table => own.items[position]?) hfind
  simp only [Option.bind_map] at hitems
  exact congrArg (Prod.mk · (batch.report.get? table position)) hitems

/-- The end of a batch changes what is reported, but no items. -/
theorem cell_finish (batch : Batch) (table : String) (position : Nat) :
    batch.finish.2.cell table position =
      ((batch.cell table position).1, batch.finish.2.report.get? table position) := by
  obtain ⟨report, heq⟩ := failAll_eq batch batch.pending
  rw [finish_eq, heq]
  rfl

/-- The items of a table are of a type. -/
def HasType (batch : Batch) (table : String) (type : ItemType) : Prop :=
  ∀ own, batch.findTable? table = some own → own.type = type

theorem exists_hasType (batch : Batch) (table : String) : ∃ type, batch.HasType table type := by
  cases hfound : batch.findTable? table with
  | none => exact ⟨⟨"", none, some⟩, fun own hown => by rw [hfound] at hown; cases hown⟩
  | some found =>
    refine ⟨found.type, fun own hown => ?_⟩
    rw [Option.some.inj (hfound.symm.trans hown)]

theorem Keeps.hasType {before after : Batch} (h : Keeps before after) {table : String}
    {type : ItemType} (htype : before.HasType table type) : after.HasType table type := by
  have hfind := congrArg (List.find? fun own => own.name = table) h.tables
  simp only [List.find?_map] at hfind
  intro own hown
  have hafter : after.tables.find? ((fun own => own.name = table) ∘ Table.bare) = some own := hown
  rw [hafter, Option.map_some] at hfind
  obtain ⟨old, hold, hbare⟩ := Option.map_eq_some_iff.mp hfind.symm
  rw [← htype old hold, (Table.bare_inj.mp hbare).2.1]

/-- Replacing a table by one of the same name changes what is found under the name. -/
theorem find?_set_table {tables : List Table} (hnodup : (tables.map Table.name).Nodup) {place : Nat}
    {table table' : Table} (htable : tables[place]? = some table) (hname : table'.name = table.name)
    (name : String) :
    (tables.set place table').find? (fun other => other.name = name) =
      if table.name = name then some table' else tables.find? fun other => other.name = name := by
  induction tables generalizing place with
  | nil => simp at htable
  | cons first rest ih =>
    obtain ⟨hfirst, hrest⟩ := List.nodup_cons.mp hnodup
    cases place with
    | zero =>
      obtain rfl : first = table := by simpa using htable
      rw [List.set_cons_zero, List.find?_cons, List.find?_cons, hname]
      by_cases hfound : first.name = name <;> simp [hfound]
    | succ place =>
      have hplace : rest[place]? = some table := by simpa using htable
      rw [List.set_cons_succ, List.find?_cons, List.find?_cons, ih hrest hplace]
      by_cases hfound : first.name = name
      · have hne : table.name ≠ name := by
          rintro rfl
          exact hfirst (hfound ▸ List.mem_map_of_mem (List.mem_of_getElem? hplace))
        simp [hfound, hne]
      · simp [hfound]

theorem getElem?_setEach (items : List Json) (positions : List Nat) (document : Json)
    (position : Nat) :
    (positions.foldl (fun items position => items.set position document) items)[position]? =
      if position ∈ positions then items[position]?.map fun _ => document
      else items[position]? := by
  induction positions generalizing items with
  | nil => rfl
  | cons first positions ih =>
    rw [List.foldl_cons, ih, List.getElem?_set]
    by_cases hfirst : first = position
    · subst hfirst
      by_cases hlt : first < items.length <;> simp [hlt]
    · have hfirst' : position ≠ first := fun h => hfirst h.symm
      simp [hfirst, hfirst']

section Cell

variable {batch : Batch} {flight round : List Nat} {table : String} {type : ItemType}
  {position : Nat}

theorem cell_failSlot (batch : Batch) (error : ItemError) (id : Nat) (table : String)
    (position : Nat) :
    (batch.failSlot error id).cell table position =
      if batch.holdsItem table position id then (batch.cell table position).fail error
      else batch.cell table position := by
  have hreport := get?_failSlot batch error id table position
  obtain ⟨report, heq⟩ := failSlot_eq batch error id
  rw [heq] at hreport ⊢
  show (_, report.get? table position) = _
  rw [show report.get? table position = _ from hreport]
  split_ifs <;> rfl

/-- Slots that fail are reported at their items and nowhere else. -/
theorem cell_failEach (batch : Batch) (error : ItemError) (ids : List Nat) (table : String)
    (position : Nat) :
    (ids.foldl (failSlot · error) batch).cell table position =
      if ids.any (batch.holdsItem table position) then (batch.cell table position).fail error
      else batch.cell table position := by
  induction ids generalizing batch with
  | nil => rfl
  | cons id ids ih =>
    rw [List.foldl_cons, ih, (fills_failSlot batch error id).keeps.holdsItem_eq, cell_failSlot,
      List.any_cons]
    by_cases hid : batch.holdsItem table position id
    · simp only [hid, if_true, Bool.true_or]
      split_ifs <;> rfl
    · simp [hid]

/-- An item is received at the positions of its slot and nowhere else. -/
theorem Sound.cell_deliver (h : Sound batch flight) (htype : batch.HasType table type)
    (position id : Nat) (item : AttributeMap) :
    (batch.deliver id item).cell table position =
      if batch.holdsItem table position id then (batch.cell table position).receive type item
      else batch.cell table position := by
  cases hslot : batch.slots[id]? with
  | none =>
    have hholds : batch.holdsItem table position id = false := by rw [holdsItem, hslot]; rfl
    rw [hholds, deliver, hslot]
    rfl
  | some slot =>
    obtain ⟨own, hown, -⟩ := h.keyed slot (List.mem_of_getElem? hslot)
    have hname : batch.tableName slot.table = own.name := by rw [tableName, hown]; rfl
    have hholds : batch.holdsItem table position id = true ↔
        own.name = table ∧ position ∈ slot.positions := by
      rw [holdsItem_iff, hslot]
      simp [hname]
    have hownType : own.name = table → own.type = type := by
      rintro rfl
      exact htype own (h.findTable?_eq_some hown)
    let filled (document : Json) : Table := { own with
      items := slot.positions.foldl (fun items position => items.set position document) own.items }
    have hdeliver : batch.deliver id item = match own.type.decode item with
        | .error error => batch.failSlot (.codec error) id
        | .ok document =>
          { batch with tables := batch.tables.set slot.table (filled document) } := by
      simp only [deliver, hslot, hown]
      cases own.type.decode item <;> rfl
    rw [hdeliver]
    cases hdecode : own.type.decode item with
    | error error =>
      simp only [cell_failSlot]
      by_cases hheld : batch.holdsItem table position id
      · rw [if_pos hheld, if_pos hheld, Cell.receive, ← hownType (hholds.mp hheld).1, hdecode]
        rfl
      · rw [if_neg hheld, if_neg hheld]
    | ok document =>
      have hfilled : (filled document).name = own.name := rfl
      have hfind := find?_set_table h.names_nodup hown hfilled table
      simp only [cell, findTable?, hfind]
      by_cases htable : own.name = table
      · have hfound : batch.tables.find? (fun other => other.name = table) = some own := by
          rw [← htable]
          exact h.findTable?_eq_some hown
        rw [if_pos htable, Option.bind_some, getElem?_setEach, hfound, Option.bind_some]
        by_cases hposition : position ∈ slot.positions
        · rw [if_pos hposition, if_pos (hholds.mpr ⟨htable, hposition⟩), Cell.receive,
            ← hownType htable, hdecode]
        · rw [if_neg hposition, if_neg fun hheld => hposition (hholds.mp hheld).2]
      · rw [if_neg htable, if_neg fun hheld => htable (hholds.mp hheld).1]

/-- The first item that is brought for the slot of a position is received there. -/
theorem Sound.cell_deliverAll (h : Sound batch flight) (htype : batch.HasType table type)
    (hunique : ∀ i j, batch.holdsItem table position i = true →
      batch.holdsItem table position j = true → i = j)
    (received : List Nat) (found : List (Nat × AttributeMap)) :
    (batch.deliverAll received found).2.cell table position =
      match found.find? fun entry =>
        batch.holdsItem table position entry.1 && !received.contains entry.1 with
      | none => batch.cell table position
      | some entry => (batch.cell table position).receive type entry.2 := by
  induction found generalizing batch received with
  | nil => rfl
  | cons entry rest ih =>
    rw [deliverAll, List.find?_cons]
    by_cases hreceived : received.contains entry.1 = true
    · rw [if_pos hreceived, hreceived, Bool.not_true, Bool.and_false, ih h htype hunique]
    · have hfills := fills_deliver batch entry.1 entry.2
      have hholds := hfills.keeps.holdsItem_eq
      rw [if_neg hreceived, ih (h.fills hfills) (hfills.keeps.hasType htype)
        (hholds ▸ hunique), hholds, h.cell_deliver htype]
      by_cases hentry : batch.holdsItem table position entry.1 = true
      · -- the slot of the position has received its item, and there is no other
        have hnone : (rest.find? fun other => batch.holdsItem table position other.1 &&
            !(received ++ [entry.1]).contains other.1) = none := by
          refine List.find?_eq_none.mpr fun other _ hother => ?_
          obtain ⟨hother, hnot⟩ := Bool.and_eq_true_iff.mp hother
          rw [hunique other.1 entry.1 hother hentry] at hnot
          simp at hnot
        rw [hnone, hentry, Bool.eq_false_of_not_eq_true hreceived]
        rfl
      · have hsame : (fun other : Nat × AttributeMap => batch.holdsItem table position other.1 &&
            !(received ++ [entry.1]).contains other.1) =
            fun other => batch.holdsItem table position other.1 && !received.contains other.1 := by
          funext other
          by_cases hother : other.1 = entry.1
          · simp [hother, hentry]
          · simp [hother]
        rw [hsame, Bool.eq_false_of_not_eq_true hentry]
        rfl

theorem cell_receiveItems_eq (batch : Batch) (round : List Nat) (reply : BatchGetReply)
    (table : String) (position : Nat) :
    let missing := round.filter fun id =>
      !(batch.undone reply).contains id && !((batch.found round reply).map Prod.fst).contains id
    let delivered := (batch.deliverAll [] (batch.found round reply)).2
    (batch.receiveItems round reply).2.cell table position =
      if missing.any (batch.holdsItem table position) then
        (delivered.cell table position).fail .notFound
      else delivered.cell table position := by
  intro missing delivered
  have hholds := (fills_deliverAll batch [] (batch.found round reply)).keeps.holdsItem_eq
  rw [receiveItems_eq, ← hholds]
  exact cell_failEach _ .notFound missing table position

/-- The items that no slot of a round has stay as they are. -/
theorem Sound.cell_receiveItems_of_not (h : Sound batch flight)
    (hunique : ∀ i j, batch.holdsItem table position i = true →
      batch.holdsItem table position j = true → i = j)
    (hnot : ∀ id ∈ round, batch.holdsItem table position id = false) (reply : BatchGetReply) :
    (batch.receiveItems round reply).2.cell table position = batch.cell table position := by
  have hmissing : (round.filter fun id => !(batch.undone reply).contains id &&
      !((batch.found round reply).map Prod.fst).contains id).any
        (batch.holdsItem table position) = false := by
    refine List.any_eq_false.mpr fun id hid => ?_
    rw [hnot id (List.mem_filter.mp hid).1]
    exact Bool.false_ne_true
  have hfound : ((batch.found round reply).find? fun entry =>
      batch.holdsItem table position entry.1 && !([] : List Nat).contains entry.1) = none := by
    refine List.find?_eq_none.mpr fun entry hentry => ?_
    have hround := List.contains_iff_mem.mp (List.mem_filter.mp hentry).2
    rw [hnot entry.1 hround]
    exact Bool.false_ne_true
  obtain ⟨type, htype⟩ := batch.exists_hasType table
  rw [cell_receiveItems_eq, hmissing, if_neg Bool.false_ne_true,
    h.cell_deliverAll htype hunique, hfound]

/-- The items of a slot of a round receive the first item that the reply brings for the slot. If it
    brings none, they wait when the slot is left undone, and are reported as not found else. -/
theorem Sound.cell_receiveItems (h : Sound batch flight) (htype : batch.HasType table type)
    (hunique : ∀ i j, batch.holdsItem table position i = true →
      batch.holdsItem table position j = true → i = j)
    {id : Nat} (hid : id ∈ round) (hheld : batch.holdsItem table position id = true)
    (reply : BatchGetReply) :
    (batch.receiveItems round reply).2.cell table position =
      match batch.firstFor? reply id with
      | some item => (batch.cell table position).receive type item
      | none =>
        if id ∈ batch.undone reply then batch.cell table position
        else (batch.cell table position).fail .notFound := by
  have hholds : ∀ other, batch.holdsItem table position other = decide (other = id) := by
    intro other
    rw [Bool.eq_iff_iff, decide_eq_true_iff]
    exact ⟨fun hother => hunique other id hother hheld, fun heq => heq ▸ hheld⟩
  have hfound : ((batch.found round reply).find? fun entry =>
      batch.holdsItem table position entry.1 && !([] : List Nat).contains entry.1) =
        (batch.brought reply).find? fun entry => entry.1 = id := by
    rw [found, List.find?_filter]
    refine congrArg (fun chosen => (batch.brought reply).find? chosen) (funext fun entry => ?_)
    rw [hholds]
    by_cases hentry : entry.1 = id
    · simp [hentry, hid]
    · simp [hentry]
  have hmissing : (round.filter fun other => !(batch.undone reply).contains other &&
      !((batch.found round reply).map Prod.fst).contains other).any
        (batch.holdsItem table position) =
        (!(batch.undone reply).contains id && !(batch.firstFor? reply id).isSome) := by
    rw [← contains_found hid, Bool.eq_iff_iff, List.any_eq_true]
    simp only [hholds, List.mem_filter, decide_eq_true_eq]
    constructor
    · rintro ⟨other, ⟨-, hother⟩, rfl⟩
      exact hother
    · intro hother
      exact ⟨id, ⟨hid, hother⟩, rfl⟩
  rw [cell_receiveItems_eq, hmissing, h.cell_deliverAll htype hunique, hfound]
  unfold firstFor?
  cases (batch.brought reply).find? fun entry => entry.1 = id with
  | none => by_cases hundone : id ∈ batch.undone reply <;> simp [hundone]
  | some entry => simp

/-- Where the slot of an item still waits after a reply, what stands at the item is as it was. -/
theorem Sound.cell_receiveItems_of_stays (h : Sound batch flight)
    (hunique : ∀ i j, batch.holdsItem table position i = true →
      batch.holdsItem table position j = true → i = j) {reply : BatchGetReply}
    (hstays : ∀ id ∈ round, batch.holdsItem table position id = true →
      id ∈ (batch.receiveItems round reply).2.pending) :
    (batch.receiveItems round reply).2.cell table position = batch.cell table position := by
  by_cases hround : ∃ id ∈ round, batch.holdsItem table position id = true
  · obtain ⟨id, hid, hheld⟩ := hround
    have hagain := ((settles_receiveItems batch round reply).mem_pending_iff.mp
      (hstays id hid hheld)).2 hid
    rw [again, contains_found hid] at hagain
    obtain ⟨hundone, hnone⟩ := Bool.and_eq_true_iff.mp hagain
    obtain ⟨type, htype⟩ := batch.exists_hasType table
    rw [h.cell_receiveItems htype hunique hid hheld]
    cases hfirst : batch.firstFor? reply id with
    | none => exact if_pos (List.contains_iff_mem.mp hundone)
    | some item => simp [hfirst] at hnone
  · refine h.cell_receiveItems_of_not hunique (fun id hid => ?_) reply
    exact Bool.eq_false_of_not_eq_true fun hheld => hround ⟨id, hid, hheld⟩

end Cell

end TableClient.Batch
