import Mathlib
import TableClient.Proofs.Batch.Carried

/-!
# The slots of a batch, all along

However a batch goes on, its pending slots are those that wait, each in one queue, and its slots
share out the items that have a key. An item is reported once: when it is registered, when its slot
is settled, or at the end.

Results:
* `Registered.positions_perm`: the slots of a table and its reported items share out the positions.
* `Course.keyedApart`: a request has no key twice.
* `Sound.get?_receive`: a reply reports nothing for the items of a slot that it does not settle.
* `Accounted.of_course`: every slot is pending, or a reply to a request that carried it settled it.
* `run_keeps_arena`: what is so in every state of a batch, for every request, and at the end.
-/

namespace TableClient.Batch

/-! ## Positions -/

/-- The positions that the slots of a table hold. -/
def positionsOf (batch : Batch) (table : String) : List Nat :=
  (batch.slots.filter fun slot => batch.tableName slot.table = table).flatMap Slot.positions

theorem Keeps.positionsOf_eq {before after : Batch} (h : Keeps before after) :
    after.positionsOf = before.positionsOf := by
  funext table
  have hslots := congrArg (fun slots => (slots.filter fun slot =>
    before.tableName slot.table = table).flatMap Slot.positions) h.slots
  simp only [List.filter_map, List.flatMap_map] at hslots
  rw [positionsOf, h.tableName]
  exact hslots

/-- The entries that map to one key each, key by key, are all entries. -/
theorem flatMap_filter_perm {α β : Type} [DecidableEq β] {keys : List β} (hkeys : keys.Nodup)
    {f : α → β} {log : List α} (hcovers : ∀ a ∈ log, f a ∈ keys) :
    (keys.flatMap fun key => log.filter fun a => f a = key).Perm log := by
  induction keys generalizing log with
  | nil =>
    have hnil : log = [] := List.eq_nil_iff_forall_not_mem.mpr fun a ha =>
      absurd (hcovers a ha) List.not_mem_nil
    rw [hnil]
    exact List.Perm.nil
  | cons key keys ih =>
    obtain ⟨hkey, hkeys⟩ := List.nodup_cons.mp hkeys
    have hothers : ∀ a ∈ log.filter fun a => !decide (f a = key), f a ∈ keys := by
      intro a ha
      obtain ⟨hmem, hne⟩ := List.mem_filter.mp ha
      exact (List.mem_cons.mp (hcovers a hmem)).resolve_left (by simpa using hne)
    have hsame : (keys.flatMap fun other =>
        (log.filter fun a => !decide (f a = key)).filter fun a => f a = other) =
          keys.flatMap fun other => log.filter fun a => f a = other := by
      refine List.flatMap_congr fun other hother => ?_
      rw [List.filter_filter]
      refine List.filter_congr fun a _ => ?_
      by_cases ha : f a = other
      · have hne : other ≠ key := fun heq => hkey (heq ▸ hother)
        simp [ha, hne]
      · simp [ha]
    rw [List.flatMap_cons, ← hsame]
    exact ((ih hkeys hothers).append_left _).trans (List.filter_append_perm _ log)

section Registered

variable {purpose : Purpose} {consistent : Bool} {orders : List Order} {batch : Batch}

/-- The slots of a table hold the positions of the items that have a key. -/
theorem Registered.positionsOf_perm (h : Registered purpose consistent orders batch)
    {order : Order} (horder : order ∈ orders) :
    (batch.positionsOf order.table).Perm ((order.filings purpose).map Filing.position) := by
  let slots := batch.slots.filter fun slot => batch.tableName slot.table = order.table
  have hslots : ∀ {slot : Slot}, slot ∈ slots →
      slot ∈ batch.slots ∧ batch.tableName slot.table = order.table := by
    intro slot hslot
    obtain ⟨hmem, hname⟩ := List.mem_filter.mp hslot
    exact ⟨hmem, by simpa using hname⟩
  have hpositions : ∀ slot ∈ slots, slot.positions =
      ((order.filings purpose).filter fun filing => filing.key = slot.key).map Filing.position := by
    intro slot hslot
    obtain ⟨hmem, hname⟩ := hslots hslot
    have hholds := h.filed.holds slot hmem
    have htable : ∀ filing ∈ allFilings purpose orders, filing.key = slot.key →
        filing.table = order.table := fun filing hfiling hkey =>
      (hholds.tableName_eq hfiling hkey).symm.trans hname
    rw [hholds.positions, filedUnder]
    have hboth : (allFilings purpose orders).filter (fun filing => filing.key = slot.key) =
        (allFilings purpose orders).filter fun filing =>
          decide (filing.key = slot.key) && decide (filing.table = order.table) := by
      refine List.filter_congr fun filing hfiling => ?_
      by_cases hkey : filing.key = slot.key
      · simp [hkey, htable filing hfiling hkey]
      · simp [hkey]
    have hown : ∀ filing ∈ order.filings purpose, filing.table = order.table :=
      fun filing hfiling => (Order.mem_filings.mp hfiling).1
    have hchosen : ∀ filing : Filing,
        (decide (filing.key = slot.key) && decide (filing.table = order.table)) = true →
          filing.table = order.table := fun filing hfiling =>
      of_decide_eq_true (Bool.and_eq_true_iff.mp hfiling).2
    rw [hboth, h.filter_allFilings horder hchosen]
    refine congrArg (List.map Filing.position) (List.filter_congr fun filing hfiling => ?_)
    simp [hown filing hfiling]
  have hkeys : (slots.map Slot.key).Nodup := by
    have hsublist : (slots.map Slot.key).Sublist (batch.slots.map Slot.key) :=
      List.filter_sublist.map _
    exact h.filed.keys_nodup.sublist hsublist
  have hcovers : ∀ filing ∈ order.filings purpose, filing.key ∈ slots.map Slot.key := by
    intro filing hfiling
    have hall : filing ∈ allFilings purpose orders := List.mem_flatMap.mpr ⟨order, horder, hfiling⟩
    obtain ⟨slot, hslot, hkey⟩ := h.filed.covers filing hall
    have hname := (h.filed.holds slot hslot).tableName_eq hall hkey.symm
    have hown := (Order.mem_filings.mp hfiling).1
    have htable : slot ∈ batch.slots.filter fun slot => batch.tableName slot.table = order.table :=
      List.mem_filter.mpr ⟨hslot, by simpa using hname.trans hown⟩
    exact List.mem_map.mpr ⟨slot, htable, hkey⟩
  have hgroups := (flatMap_filter_perm hkeys hcovers).map Filing.position
  rw [List.map_flatMap, List.flatMap_map] at hgroups
  rw [positionsOf, List.flatMap_congr hpositions]
  exact hgroups

/-- The positions that the slots of a table hold, and those whose items have no key and are
    reported, are all positions of the table, each once. -/
theorem Registered.positions_perm (h : Registered purpose consistent orders batch)
    {order : Order} (horder : order ∈ orders) :
    (batch.positionsOf order.table ++ (List.range order.items.length).filter fun position =>
      (batch.report.get? order.table position).isSome).Perm (List.range order.items.length) := by
  have hkeyed : ((order.filings purpose).map Filing.position).Perm
      ((List.range order.items.length).filter fun position =>
        !(batch.report.get? order.table position).isSome) := by
    have hincreasing := List.pairwise_map.mpr (order.pairwise_filings purpose)
    refine (List.perm_ext_iff_of_nodup (hincreasing.imp fun hlt => hlt.ne)
      (List.nodup_range.filter _)).mpr fun position => ?_
    rw [List.mem_map, List.mem_filter, List.mem_range, h.get?_report_of_mem horder]
    constructor
    · rintro ⟨filing, hfiling, rfl⟩
      have hentry := (Order.mem_filings.mp hfiling).2
      obtain ⟨item, hitem, -⟩ := Order.entryAt?_eq_some_iff.mp hentry
      refine ⟨(List.getElem?_eq_some_iff.mp hitem).1, ?_⟩
      rw [Order.errorAt?_of_entryAt? hentry]
      rfl
    · rintro ⟨hlt, hnone⟩
      rw [Order.isSome_errorAt? hlt, Option.not_isNone] at hnone
      obtain ⟨entry, hentry⟩ := Option.isSome_iff_exists.mp hnone
      exact ⟨⟨order.table, position, entry⟩, Order.mem_filings.mpr ⟨rfl, hentry⟩, rfl⟩
  refine (((h.positionsOf_perm horder).trans hkeyed).append_right _).trans ?_
  exact List.perm_append_comm.trans (List.filter_append_perm _ _)

/-! ## Keys of a request -/

/-- Slots are sent as items that have their keys. -/
theorem Registered.exists_filings (h : Registered purpose consistent orders batch)
    {slots : List Slot} (hslots : ∀ slot ∈ slots, slot ∈ batch.slots) :
    ∃ filings : List Filing, (∀ filing ∈ filings, filing ∈ allFilings purpose orders) ∧
      filings.map Filing.key = slots.map Slot.key ∧
      (filings.map fun filing => (filing.table, filing.entry.payload)) =
        slots.map batch.sentAs := by
  induction slots with
  | nil => exact ⟨[], fun _ hfiling => absurd hfiling List.not_mem_nil, rfl, rfl⟩
  | cons slot slots ih =>
    obtain ⟨hslot, hslots⟩ := List.forall_mem_cons.mp hslots
    obtain ⟨filing, hfiling, hkey, hsent⟩ := h.exists_sent hslot
    obtain ⟨filings, hfilings, hkeys, hall⟩ := ih hslots
    refine ⟨filing :: filings, List.forall_mem_cons.mpr ⟨hfiling, hfilings⟩, ?_, ?_⟩
    · rw [List.map_cons, List.map_cons, hkey, hkeys]
    · rw [List.map_cons, List.map_cons, hsent, hall]

/-- Items of different slots have different keys. -/
theorem Registered.nodup_keys (h : Registered purpose consistent orders batch)
    (hitems : ∀ order ∈ orders, ∀ item ∈ order.items, item.Canonical) {filings : List Filing}
    (hfilings : ∀ filing ∈ filings, filing ∈ allFilings purpose orders)
    (hnodup : (filings.map Filing.key).Nodup) :
    (filings.map fun filing => (filing.table, filing.entry.key)).Nodup := by
  refine hnodup.of_map.map_on fun filing hfiling other hother hsame => ?_
  obtain ⟨htable, hkey⟩ := Prod.mk.inj hsame
  refine List.inj_on_of_nodup_map hnodup hfiling hother ?_
  exact h.key_eq_of_entry hitems (hfilings filing hfiling) (hfilings other hother) htable
    (Or.inl hkey)

end Registered

section Course

variable {purpose : Purpose} {consistent : Bool} {orders : List Order} {size : Nat}
  {start batch : Batch} {exchanges : List (Exchanged Running)}

/-- The entries of a request are what is sent of items of the orders, no two of which have the same
    key. -/
def KeyedApart (purpose : Purpose) (orders : List Order) (request : Request) : Prop :=
  ∃ filings : List Filing, (∀ filing ∈ filings, filing ∈ allFilings purpose orders) ∧
    request.entries.Perm (filings.map fun filing => (filing.table, filing.entry.payload)) ∧
    (filings.map fun filing => (filing.table, filing.entry.key)).Nodup

/-- A request has no key twice. -/
theorem Course.keyedApart (h : Course size start exchanges batch)
    (hregistered : Registered purpose consistent orders start)
    (hitems : ∀ order ∈ orders, ∀ item ∈ order.items, item.Canonical) :
    KeyedApart purpose orders ((batch.sent size).requestFor (batch.round size)) := by
  let slots := (batch.round size).filterMap fun id => start.slots[id]?
  have hslots : ∀ slot ∈ slots, slot ∈ start.slots := by
    intro slot hslot
    obtain ⟨id, -, hid⟩ := List.mem_filterMap.mp hslot
    exact List.mem_of_getElem? hid
  have hkeys : (slots.map Slot.key).Nodup := by
    have hround := ((h.sound hregistered.sound).sent size).flight_nodup
    rw [List.map_filterMap]
    refine hround.filterMap fun i j key hi hj => ?_
    obtain ⟨slot, hslot, hkey⟩ := Option.map_eq_some_iff.mp hi
    obtain ⟨other, hother, hsame⟩ := Option.map_eq_some_iff.mp hj
    exact eq_of_map_eq hregistered.filed.keys_nodup hslot hother (hkey.trans hsame.symm)
  obtain ⟨filings, hfilings, hfilingKeys, hsent⟩ := hregistered.exists_filings hslots
  refine ⟨filings, hfilings, ?_, hregistered.nodup_keys hitems hfilings (hfilingKeys ▸ hkeys)⟩
  rw [hsent, List.map_filterMap]
  exact h.entries_perm

end Course

/-! ## Errors that are reported -/

/-- A reply reports nothing for the items of a slot that it does not settle. -/
theorem Sound.get?_receive {before after : Batch} {round : List Nat} (h : Sound before round)
    {reply : Reply} {settled : Nat} (hreceive : before.receive round reply = .ok (settled, after))
    {table : String} {position : Nat}
    (hunique : ∀ i j, before.holdsItem table position i = true →
      before.holdsItem table position j = true → i = j)
    (hstays : ∀ id ∈ before.pending, before.holdsItem table position id = true →
      id ∈ after.pending) :
    after.report.get? table position = before.report.get? table position := by
  rcases receive_cases hreceive with ⟨-, answer, -, hanswer⟩ | ⟨-, answer, -, hanswer⟩
  · obtain rfl : (before.receiveItems round answer).2 = after := congrArg Prod.snd hanswer
    exact congrArg Prod.snd (h.cell_receiveItems_of_stays hunique fun id hid =>
      hstays id (h.mem_pending_of_mem_flight hid))
  · rw [receiveWrites_eq] at hanswer
    exact congrArg (fun taken => taken.2.report.get? table position) hanswer.symm

/-- The reply to one of the requests that carried a slot has settled it: the slot was pending until
    then, and never again. -/
def SettledBy (start : Batch) (exchanges : List (Exchanged Running)) (id : Nat) : Prop :=
  ∃ before exchange later, exchanges = before ++ exchange :: later ∧
    start.carries id exchange.request = true ∧ id ∈ exchange.state.batch.pending ∧
    ∀ other ∈ later, id ∉ other.state.batch.pending

/-- What was reported stays reported, nothing is reported for the items of a pending slot, and the
    slots that are not pending were settled. -/
structure Accounted (start : Batch) (exchanges : List (Exchanged Running)) (batch : Batch) :
    Prop where
  kept : ∀ earlier, (earlier = start ∨ ∃ exchange ∈ exchanges, exchange.state.batch = earlier) →
    ∀ table position error, earlier.report.get? table position = some error →
      batch.report.get? table position = some error
  unreported : ∀ id ∈ batch.pending, ∀ table position,
    start.holdsItem table position id = true → batch.report.get? table position = none
  settled : ∀ id < start.slots.length, id ∉ batch.pending → start.SettledBy exchanges id

section Accounted

variable {purpose : Purpose} {consistent : Bool} {orders : List Order} {size : Nat}
  {start batch after : Batch} {exchanges : List (Exchanged Running)}

theorem Registered.accounted (h : Registered purpose consistent orders start) :
    Accounted start [] start := by
  refine ⟨?_, fun id hid table position hheld => ?_, fun id hid hnot => ?_⟩
  · rintro earlier (rfl | ⟨exchange, hmem, -⟩) table position error herror
    · exact herror
    · exact absurd hmem List.not_mem_nil
  · obtain ⟨slot, hslot, htable, hposition⟩ := holdsItem_iff.mp hheld
    have hholds := h.filed.holds slot (List.mem_of_getElem? hslot)
    obtain ⟨filing, hfiling, hkey, rfl⟩ := hholds.mem_positions.mp hposition
    obtain ⟨order, horder, hmem⟩ := List.mem_flatMap.mp hfiling
    obtain ⟨hname, hentry⟩ := Order.mem_filings.mp hmem
    rw [← htable, hholds.tableName_eq hfiling hkey, hname]
    exact h.get?_report_of_entryAt? horder hentry
  · rw [h.filed.pending_eq, List.mem_range] at hnot
    exact absurd hid hnot

/-- A round keeps what was reported, reports nothing for the items of the slots that stay pending,
    and settles the others. -/
theorem Accounted.round (h : Accounted start exchanges batch)
    (hcourse : Course size start exchanges batch)
    (hregistered : Registered purpose consistent orders start) (hapart : start.SentApart)
    (stalled pause : Nat) {reply : Reply} {settled : Nat}
    (hreceive : (batch.sent size).receive (batch.round size) reply = .ok (settled, after)) :
    Accounted start
      (exchanges ++
        [⟨⟨batch, stalled⟩, (batch.sent size).requestFor (batch.round size), reply, pause⟩])
      after := by
  obtain ⟨again, hsettles, -⟩ := settles_receive hreceive
  have hsound := hcourse.sound hregistered.sound
  have hholds := (hcourse.keeps.trans (batch.keeps_sent size)).holdsItem_eq
  have hpending : ∀ id, id ∈ after.pending ↔
      id ∈ batch.pending ∧ (id ∈ batch.round size → again id = true) := fun id =>
    pending_sent batch size ▸ hsettles.mem_pending_iff
  have hsame : ∀ table position, (∀ id ∈ batch.pending,
      start.holdsItem table position id = true → id ∈ after.pending) →
        after.report.get? table position = batch.report.get? table position := by
    intro table position hstays
    refine (hsound.sent size).get?_receive hreceive ?_ ?_
    · rw [hholds]
      exact fun i j => hregistered.eq_of_holdsItem
    · rw [hholds, pending_sent]
      exact hstays
  have hkept : ∀ table position error, batch.report.get? table position = some error →
      after.report.get? table position = some error := by
    intro table position error herror
    rw [hsame table position fun id hid hheld => ?_, herror]
    rw [h.unreported id hid table position hheld] at herror
    cases herror
  refine ⟨?_, fun id hid table position hheld => ?_, fun id hid hnot => ?_⟩
  · rintro earlier hearlier table position error herror
    refine hkept table position error ?_
    rcases hearlier with rfl | ⟨exchange, hmem, rfl⟩
    · exact h.kept _ (Or.inl rfl) table position error herror
    · rcases List.mem_append.mp hmem with hold | hlast
      · exact h.kept _ (Or.inr ⟨exchange, hold, rfl⟩) table position error herror
      · rw [List.mem_singleton.mp hlast] at herror
        exact herror
  · have hold := ((hpending id).mp hid).1
    rw [hsame table position fun other _ hother => ?_, h.unreported id hold table position hheld]
    exact hregistered.eq_of_holdsItem hheld hother ▸ hid
  · by_cases hold : id ∈ batch.pending
    · have hround : id ∈ batch.round size := by
        by_contra hround
        exact hnot ((hpending id).mpr ⟨hold, fun hmem => absurd hmem hround⟩)
      exact ⟨exchanges, _, [], rfl, (hcourse.carries_iff hregistered.sound hapart id).mpr hround,
        hold, fun _ hmem => absurd hmem List.not_mem_nil⟩
    · obtain ⟨before, exchange, later, rfl, hcarries, hwas, hlater⟩ := h.settled id hid hold
      refine ⟨before, exchange, later ++ [_], by rw [List.append_assoc, List.cons_append], hcarries,
        hwas, fun other hother => ?_⟩
      rcases List.mem_append.mp hother with hmem | hlast
      · exact hlater other hmem
      · rw [List.mem_singleton.mp hlast]
        exact hold

/-- Every slot is pending, or a reply to a request that carried it settled it. -/
theorem Accounted.of_course (h : Course size start exchanges batch)
    (hregistered : Registered purpose consistent orders start) (hapart : start.SentApart) :
    Accounted start exchanges batch := by
  induction h with
  | start => exact hregistered.accounted
  | round h stalled pause hreceive ih =>
    exact ih.round h hregistered hapart stalled pause hreceive

end Accounted

/-! ## Between rounds and at the end -/

/-- The pending slots are those that wait, each in one queue, and the slots of a table and its items
    that were reported when they were registered share out the positions of the table. -/
structure Arena (orders : List Order) (start batch : Batch) : Prop where
  pending_nodup : batch.pending.Nodup
  queues_perm : (batch.retry ++ batch.tables.flatMap Table.fresh).Perm batch.pending
  tables : batch.tables.map Table.name = orders.map Order.table
  positions_perm : ∀ order ∈ orders,
    (batch.positionsOf order.table ++ (List.range order.items.length).filter fun position =>
      (start.report.get? order.table position).isSome).Perm (List.range order.items.length)

/-- Each item is reported once and for all, or a reply has settled its slot. -/
structure Concluded (orders : List Order) (start : Batch) (exchanges : List (Exchanged Running))
    (after : Batch) : Prop where
  once : (after.report.toList.map fun entry => (entry.1, entry.2.1)).Nodup
  kept : ∀ earlier, (earlier = start ∨ ∃ exchange ∈ exchanges, exchange.state.batch = earlier) →
    ∀ table position error, earlier.report.get? table position = some error →
      after.report.get? table position = some error
  covered : ∀ order ∈ orders, ∀ position < order.items.length,
    (∃ error, after.report.get? order.table position = some error) ∨
      ∃ id, start.holdsItem order.table position id = true ∧ id ∉ after.pending ∧
        start.SettledBy exchanges id

section Run

variable {config : Config} {purpose : Purpose} {consistent : Bool} {orders : List Order}
  {size : Nat} {start batch : Batch} {exchanges : List (Exchanged Running)}

theorem Sound.withFault (h : Sound batch []) (fault? : Option Error) :
    Sound { batch with fault? } [] :=
  ⟨h.names_nodup, h.keys_nodup, h.pending_nodup, h.pending_lt, h.queue_perm, h.keyed⟩

/-- The slots of a batch are in step as long as it has the slots of what was registered. -/
theorem Sound.arena (h : Sound batch []) (hregistered : Registered purpose consistent orders start)
    {fault? : Option Error} (hkeeps : Keeps { start with fault? } batch) :
    Arena orders { start with fault? } batch := by
  refine ⟨h.pending_nodup, h.queue_perm, hkeeps.names.trans hregistered.frame.2.2,
    fun order horder => ?_⟩
  rw [hkeeps.positionsOf_eq]
  exact hregistered.positions_perm horder

/-- At the end of its course a batch has reported each item once, or has settled its slot. -/
theorem Course.concluded (h : Course size start exchanges batch)
    (hregistered : Registered purpose consistent orders start) (hapart : start.SentApart) :
    Concluded orders start exchanges batch.finish.2 := by
  have haccounted := Accounted.of_course h hregistered hapart
  have hkept : ∀ earlier, (earlier = start ∨ ∃ exchange ∈ exchanges,
      exchange.state.batch = earlier) → ∀ table position error,
        earlier.report.get? table position = some error →
          batch.finish.2.report.get? table position = some error := by
    intro earlier hearlier table position error herror
    have hreported := haccounted.kept earlier hearlier table position error herror
    rw [get?_finish_of_not_pending fun id hid => ?_, hreported]
    refine Bool.eq_false_of_not_eq_true fun hheld => ?_
    rw [h.keeps.holdsItem_eq] at hheld
    rw [haccounted.unreported id hid table position hheld] at hreported
    cases hreported
  refine ⟨?_, hkept, fun order horder position hposition => ?_⟩
  · have hrecorded := h.recorded.trans (fills_finish batch).recorded
    exact BatchReport.nodup_toList (hrecorded.sorted hregistered.sorted_report)
  · cases hentry : order.entryAt? purpose position with
    | none =>
      -- the item has no key, which was reported when it was registered
      have hsome := Order.isSome_errorAt? hposition purpose
      rw [hentry, ← hregistered.get?_report_of_mem horder] at hsome
      obtain ⟨error, herror⟩ := Option.isSome_iff_exists.mp hsome
      exact Or.inl ⟨error, hkept start (Or.inl rfl) order.table position error herror⟩
    | some entry =>
      obtain ⟨id, slot, hslot, -, -, hheld⟩ := hregistered.exists_holdsItem horder hentry
      by_cases hid : id ∈ batch.pending
      · exact Or.inl ⟨_, h.get?_finish hregistered hid hheld⟩
      · have hlt := (List.getElem?_eq_some_iff.mp hslot).1
        exact Or.inr ⟨id, hheld, (fills_finish batch).pending ▸ hid, haccounted.settled id hlt hid⟩

/-- A batch has the slots of what was registered in all its states. -/
theorem Registered.keeps_of_passes (h : Registered purpose consistent orders start)
    (fault? : Option Error) {state : Running}
    (hpasses : Passes (run config) ⟨{ start with fault? }, 0⟩ exchanges state) :
    Keeps { start with fault? } state.batch ∧ Sound state.batch [] := by
  have hsound := h.sound.withFault fault?
  cases fault? with
  | none =>
    have hcourse := Course.of_passes hsound rfl hpasses
    exact ⟨hcourse.keeps, hcourse.sound hsound⟩
  | some error =>
    obtain ⟨-, rfl⟩ := passes_of_fault rfl hpasses
    exact ⟨.refl _, hsound⟩

/-- A request has an entry, no more of them than a round has slots, and no key twice. -/
theorem Registered.keyedApart_of_ask (h : Registered purpose consistent orders start)
    (hitems : ∀ order ∈ orders, ∀ item ∈ order.items, item.Canonical) {state : Running}
    (hpasses : Passes (run config) ⟨start, 0⟩ exchanges state) {request : Request}
    {receive : Reply → Next Running (Except Error Unit × Batch)}
    (hask : run config state = .ask request receive) :
    1 ≤ request.entries.length ∧ request.entries.length ≤ roundSize config purpose ∧
      KeyedApart purpose orders request := by
  obtain ⟨hpurpose, hfault, -⟩ := h.frame
  have hcourse := Course.of_passes h.sound hfault hpasses
  obtain ⟨hpending, rfl, -⟩ := hcourse.of_ask h.sound hfault rfl hask
  have hkeyed := hcourse.keyedApart h hitems
  have hround := round_ne_nil (roundSize_pos config start.purpose)
    ((hcourse.sound h.sound).queue_ne_nil hpending)
  have hle := length_round_le state.batch (roundSize config start.purpose)
  rw [← hcourse.length_entries h.sound] at hle
  rw [← List.length_pos_iff, ← hcourse.length_entries h.sound] at hround
  exact ⟨hround, hpurpose ▸ hle, hkeyed⟩

/-- A run that no failure of a request ended has reported each item once, or settled its slot. -/
theorem Registered.concluded_of_ends (h : Registered purpose consistent orders start)
    (hitems : ∀ order ∈ orders, ∀ item ∈ order.items, item.Canonical)
    {outcome : Except Error Unit} {after : Batch}
    (hends : Ends (run config) ⟨start, 0⟩ exchanges (outcome, after))
    (houtcome : ∀ activity cause, outcome ≠ .error (.transport activity cause)) :
    Keeps start after ∧ Sound after [] ∧
      (outcome = .ok () ∨ outcome = .error (.batch after.report)) ∧
      Concluded orders start exchanges after := by
  obtain ⟨last, hcourse, hfinish⟩ := (Course.of_ends h.sound h.frame.2.1 hends).resolve_right
    fun ⟨cause, hfailed, _⟩ => houtcome _ cause hfailed
  have hcases := last.finish_cases
  have hfills := fills_finish last
  have hconcluded := hcourse.concluded h (h.sentApart hitems)
  rw [hfinish] at hcases hfills hconcluded
  exact ⟨hcourse.keeps.trans hfills.keeps, (hcourse.sound h.sound).fills hfills, hcases, hconcluded⟩

end Run

/-- Whatever orders a batch is made of, in all its states the pending slots are those that wait, and
    the slots of a table share out its positions with the items that were reported at once; while a
    slot is pending there is a round, and a batch that can run asks for it. A request has between
    one and as many entries as a round may have slots, and no key twice. At the end each item was
    reported once and for all, or a reply to a request that carried its slot settled it, unless a
    request has failed. The orders count up to the first one for a table that has one already; if
    there is such an order, the batch sends nothing and fails. -/
theorem run_keeps_arena (config : Config) (purpose : Purpose) (consistent : Bool)
    (orders : List Order) (hitems : ∀ order ∈ orders, ∀ item ∈ order.items, item.Canonical) :
    let start := ofOrders purpose consistent orders
    let size := if purpose = .get then max 1 (min config.batchGetSize.toNat 100)
      else max 1 (min config.batchWriteSize.toNat 25)
    ∃ accepted, accepted <+: orders ∧
      ((orders.map Order.table).Nodup → accepted = orders ∧ start.fault? = none) ∧
      (∀ exchanges state, Passes (run config) ⟨start, 0⟩ exchanges state →
        Arena accepted start state.batch ∧
        (state.batch.pending ≠ [] → state.batch.round size ≠ [] ∧
          (start.fault? = none → ∃ request receive, run config state = .ask request receive))) ∧
      (∀ exchanges state request receive, Passes (run config) ⟨start, 0⟩ exchanges state →
        run config state = .ask request receive →
          1 ≤ request.entries.length ∧ request.entries.length ≤ size ∧
            KeyedApart purpose accepted request) ∧
      ∀ exchanges outcome after, Ends (run config) ⟨start, 0⟩ exchanges (outcome, after) →
        (∀ activity cause, outcome ≠ .error (.transport activity cause)) →
          Arena accepted start after ∧
          if (orders.map Order.table).Nodup then
            (outcome = .ok () ∨ outcome = .error (.batch after.report)) ∧
              Concluded orders start exchanges after
          else exchanges = [] ∧ ∃ table, outcome = .error (.duplicateTable table) := by
  intro start size
  obtain ⟨accepted, registered, fault?, hfirst, hregistered, hstart, hcases⟩ :=
    exists_registered purpose consistent orders
  replace hstart : start = { registered with fault? } := hstart
  clear_value start
  subst hstart
  have hsize : roundSize config purpose = size := by cases purpose <;> rfl
  have haccepted : ∀ order ∈ accepted, ∀ item ∈ order.items, item.Canonical := fun order horder =>
    hitems order (hfirst.subset horder)
  have hbetween : ∀ exchanges state,
      Passes (run config) ⟨{ registered with fault? }, 0⟩ exchanges state →
        Arena accepted { registered with fault? } state.batch ∧
        (state.batch.pending ≠ [] → state.batch.round size ≠ [] ∧
          (fault? = none → ∃ request receive, run config state = .ask request receive)) := by
    intro exchanges state hpasses
    obtain ⟨hkeeps, hsound⟩ := hregistered.keeps_of_passes fault? hpasses
    refine ⟨hsound.arena hregistered hkeeps, fun hpending => ⟨?_, fun hnone => ?_⟩⟩
    · exact round_ne_nil (hsize ▸ roundSize_pos config purpose) (hsound.queue_ne_nil hpending)
    · have hrun := hsound.run_eq config state.stalled (hkeeps.fault?.trans hnone) rfl
      rw [if_neg hpending] at hrun
      exact ⟨_, _, hrun⟩
  refine ⟨accepted, hfirst, ?_, hbetween, ?_⟩
  · rcases hcases with ⟨-, heq, hnone⟩ | ⟨hnot, -⟩
    · exact fun _ => ⟨heq, hnone⟩
    · exact fun hnodup => absurd hnodup hnot
  rcases hcases with ⟨hnodup, rfl, rfl⟩ | ⟨hnot, table, rfl⟩
  · -- every table is registered once
    rw [hregistered.withoutFault]
    refine ⟨fun exchanges state request receive hpasses hask => ?_,
      fun exchanges outcome after hends houtcome => ?_⟩
    · exact hsize ▸ hregistered.keyedApart_of_ask haccepted hpasses hask
    · obtain ⟨hkeeps, hsound, hended⟩ := hregistered.concluded_of_ends haccepted hends houtcome
      have harena := hsound.arena hregistered (hregistered.withoutFault.symm ▸ hkeeps)
      rw [hregistered.withoutFault] at harena
      rw [if_pos hnodup]
      exact ⟨harena, hended⟩
  · -- a table is registered twice, and nothing is sent
    refine ⟨fun exchanges state request receive hpasses hask => ?_,
      fun exchanges outcome after hends houtcome => ?_⟩
    · obtain ⟨-, rfl⟩ := passes_of_fault rfl hpasses
      rw [run_of_fault config 0 rfl] at hask
      cases hask
    · obtain ⟨rfl, hresult⟩ := ends_of_fault rfl hends
      cases hresult
      rw [if_neg hnot]
      exact ⟨(hregistered.sound.withFault _).arena hregistered (.refl _), rfl, table, rfl⟩

/-- Three documents: the second is no item, the others have the same key. -/
def brokenItem : Order where
  table := "T"
  type := ⟨"document", none, some⟩
  items := [.object [("a", .string "x")], .null, .object [("a", .string "x")]]

/-- The reply of a store that has deleted everything. -/
def deletion : Reply := replyWith ({} : Protocol.BatchWriteReply)

/-- The document that is no item is reported; the others are deleted by one request. -/
theorem run_keeps_arena_brokenItem :
    Arena [brokenItem] (ofOrders .delete false [brokenItem])
        (ofOrders .delete false [brokenItem]) ∧
      ∃ last after, Ends (run {}) ⟨ofOrders .delete false [brokenItem], 0⟩ [last]
          (.error (.batch after.report), after) ∧
        after.report.get? "T" 2 = none ∧ last.request.entries = [("T", [("a", .string "x")])] ∧
        KeyedApart .delete [brokenItem] last.request ∧
        Concluded [brokenItem] (ofOrders .delete false [brokenItem]) [last] after := by
  have hitems : ∀ order ∈ [brokenItem], ∀ item ∈ order.items, item.Canonical := by
    simp [brokenItem, Json.Canonical, Json.CanonicalFields, Dict.Sorted]
  obtain ⟨accepted, -, hall, hbetween, hrequests, hend⟩ :=
    run_keeps_arena {} .delete false [brokenItem] hitems
  obtain ⟨rfl, -⟩ := hall (by decide)
  have hask : run {} ⟨ofOrders .delete false [brokenItem], 0⟩ = .ask _ _ := rfl
  obtain ⟨request, receive, state, after, hask, hpasses, hdone, hreport, hentries⟩ :
      ∃ request receive state after,
        run {} ⟨ofOrders .delete false [brokenItem], 0⟩ = .ask request receive ∧
        Passes (run {}) ⟨ofOrders .delete false [brokenItem], 0⟩
          [⟨⟨ofOrders .delete false [brokenItem], 0⟩, request, deletion, 0⟩] state ∧
        run {} state = .done (.done (.error (.batch after.report), after)) ∧
        after.report.get? "T" 2 = none ∧ request.entries = [("T", [("a", .string "x")])] :=
    ⟨_, _, _, _, hask, .step .start hask deletion rfl, rfl, by decide, by decide⟩
  have hends := Ends.silent hpasses hdone
  refine ⟨(hbetween [] _ .start).1, _, after, hends, hreport, hentries,
    (hrequests [] _ request receive .start hask).2.2, ?_⟩
  have hended := (hend _ _ _ hends (fun _ _ h => by cases h)).2
  rw [if_pos (by decide)] at hended
  exact hended.2

/-- A batch for which a table is registered again ends with neither a report for an item that has a
    slot nor a reply that settled the slot. -/
theorem unsettled_registeredAgain :
    let start := ofOrders .put false [declaredItems, { declaredItems with items := [] }]
    start.holdsItem "T" 0 0 = true ∧
      ∃ after, Ends (run {}) ⟨start, 0⟩ [] (.error (.duplicateTable "T"), after) ∧
        after.report.get? "T" 0 = none ∧ ∀ id, ¬ start.SettledBy [] id := by
  intro start
  have hends : Ends (run {})
      ⟨ofOrders .put false [declaredItems, { declaredItems with items := [] }], 0⟩ []
      (.error (.duplicateTable "T"),
        ofOrders .put false [declaredItems, { declaredItems with items := [] }]) :=
    .silent .start rfl
  refine ⟨by decide, _, hends, by decide, ?_⟩
  rintro id ⟨before, exchange, later, hsplit, -⟩
  exact absurd hsplit (by simp)

end TableClient.Batch
