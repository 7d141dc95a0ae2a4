import Mathlib
import TableClient.Proofs.Batch.Carried
import TableClient.Proofs.Batch.Termination

/-!
# Slots that no request carries

The slots that wait for another try go first, and a round that settles nothing puts all its slots
back. So when a batch gives up, its last round was full of slots that the store keeps leaving
undone, or it held all that was pending. Fresh slots are given up unsent exactly if there are more
slots left than a round takes.

Results:
* `Tried.of_course`: a slot is fresh until a request carries it, and counts those that do.
* `uncarried_of_ends`: how many slots no request has carried at the end, and what is reported for
  the slots that are given up.
-/

namespace TableClient.Batch

/-! ## Counted requests -/

/-- How many requests have carried a slot. -/
def timesCarried (start : Batch) (exchanges : List (Exchanged Running)) (id : Nat) : Nat :=
  exchanges.countP fun exchange => start.carries id exchange.request

/-- The slots count the requests that carried them, and are fresh until the first one. Those that
    wait for another try fit into a round, and fill it once the last round has settled nothing. -/
structure Tried (size : Nat) (start : Batch) (exchanges : List (Exchanged Running))
    (batch : Batch) : Prop where
  attempts : ∀ (id : Nat) (slot : Slot), batch.slots[id]? = some slot →
    slot.attempts = start.timesCarried exchanges id
  fresh : ∀ id < start.slots.length,
    (id ∈ batch.tables.flatMap Table.fresh ↔ start.timesCarried exchanges id = 0)
  retry_le : batch.retry.length ≤ size
  full : ∀ last ∈ exchanges.getLast?, last.state.batch.pending = batch.pending →
    batch.retry.length = min size batch.pending.length

section Course

variable {purpose : Purpose} {consistent : Bool} {orders : List Order} {size : Nat}
  {start batch after : Batch} {exchanges : List (Exchanged Running)}

/-- No request has carried the slots of a batch that is only registered, and all are fresh. -/
theorem Registered.tried (h : Registered purpose consistent orders start) :
    Tried size start [] start := by
  have hfiled := h.filed
  refine ⟨fun id slot hslot => ?_, fun id hid => ?_, ?_, by simp⟩
  · exact (hfiled.holds slot (List.mem_of_getElem? hslot)).attempts
  · rw [hfiled.fresh_perm.mem_iff, hfiled.pending_eq, List.mem_range]
    exact ⟨fun _ => rfl, fun _ => hid⟩
  · rw [hfiled.retry_eq]
    exact Nat.zero_le size

theorem timesCarried_snoc (start : Batch) (exchanges : List (Exchanged Running))
    (last : Exchanged Running) (id : Nat) :
    start.timesCarried (exchanges ++ [last]) id =
      start.timesCarried exchanges id + if start.carries id last.request then 1 else 0 := by
  rw [timesCarried, List.countP_append, List.countP_singleton]
  rfl

/-- A round counts its slots, takes them out of the fresh ones, and fills up the slots that wait for
    another try when it settles nothing. -/
theorem Tried.round (h : Tried size start exchanges batch)
    (hcourse : Course size start exchanges batch) (hstart : Sound start [])
    (hapart : start.SentApart) (stalled pause : Nat) {reply : Reply} {settled : Nat}
    (hreceive : (batch.sent size).receive (batch.round size) reply = .ok (settled, after)) :
    Tried size start
      (exchanges ++
        [⟨⟨batch, stalled⟩, (batch.sent size).requestFor (batch.round size), reply, pause⟩])
      after := by
  obtain ⟨again, hsettles, rfl⟩ := settles_receive hreceive
  have hsound := hcourse.sound hstart
  have hcarries := hcourse.carries_iff hstart hapart
  have hnodup := (hsound.sent size).flight_nodup
  have hretry : after.retry = (batch.round size).filter again := by
    have hdrop : (batch.sent size).retry = [] := List.drop_eq_nil_of_le h.retry_le
    rw [hsettles.retry, hdrop, List.nil_append]
  refine ⟨fun id slot hslot => ?_, fun id hid => ?_, ?_, ?_⟩
  · rw [hsettles.slots, getElem?_sent] at hslot
    obtain ⟨old, hold, rfl⟩ := Option.map_eq_some_iff.mp hslot
    rw [timesCarried_snoc, ← h.attempts id old hold]
    by_cases hround : id ∈ batch.round size
    · rw [if_pos ((hcarries id).mpr hround), List.count_eq_one_of_mem hnodup hround]
    · rw [if_neg fun hcarried => hround ((hcarries id).mp hcarried),
        List.count_eq_zero.mpr hround]
  · rw [List.flatMap_def, hsettles.fresh, ← List.flatMap_def, hsound.mem_fresh_sent, h.fresh id hid,
      timesCarried_snoc]
    by_cases hround : id ∈ batch.round size
    · rw [if_pos ((hcarries id).mpr hround)]
      exact ⟨fun hnot => absurd hround hnot.2, fun hzero => by omega⟩
    · rw [if_neg fun hcarried => hround ((hcarries id).mp hcarried)]
      exact ⟨And.left, fun hzero => ⟨hzero, hround⟩⟩
  · rw [hretry]
    exact (List.length_filter_le _ _).trans (batch.length_round_le size)
  · rintro last hlast hsame
    rw [List.getLast?_concat, Option.mem_some_iff] at hlast
    subst hlast
    have hnone := (hsound.pending_receive hreceive).2.mpr hsame
    have hlength : ((batch.round size).filter again).length +
        ((batch.round size).filter fun id => !again id).length = (batch.round size).length :=
      (List.length_eq_length_filter_add _).symm
    rw [hretry, ← hsame, ← hsound.queue_perm.length_eq, List.nil_append, ← length_round]
    omega

/-- A slot is fresh until a request carries it, and counts the requests that do. -/
theorem Tried.of_course (hregistered : Registered purpose consistent orders start)
    (hapart : start.SentApart) (h : Course size start exchanges batch) :
    Tried size start exchanges batch := by
  induction h with
  | start => exact hregistered.tried
  | round h stalled pause hreceive ih =>
    exact ih.round h hregistered.sound hapart stalled pause hreceive

/-- The slots that no request has carried are those that are still fresh. -/
theorem Tried.length_uncarried (h : Tried size start exchanges batch)
    (hcourse : Course size start exchanges batch) (hstart : Sound start []) :
    ((List.range start.slots.length).filter fun id => start.timesCarried exchanges id = 0).length +
      batch.retry.length = batch.pending.length := by
  have hsound := hcourse.sound hstart
  have hqueue : batch.queue.Nodup := hsound.queue_perm.nodup_iff.mpr hsound.pending_nodup
  have hfresh : ((List.range start.slots.length).filter fun id =>
      start.timesCarried exchanges id = 0).Perm (batch.tables.flatMap Table.fresh) := by
    refine (List.perm_ext_iff_of_nodup (List.nodup_range.filter _)
      (List.nodup_append.mp hqueue).2.1).mpr fun id => ?_
    rw [List.mem_filter, List.mem_range, decide_eq_true_iff]
    constructor
    · rintro ⟨hlt, hzero⟩
      exact (h.fresh id hlt).mpr hzero
    · intro hid
      have hwaits : id ∈ batch.queue := List.mem_append_right _ hid
      have hpending := hsound.queue_perm.mem_iff.mp hwaits
      have hlt := hsound.pending_lt id hpending
      rw [hcourse.keeps.length_slots] at hlt
      exact ⟨hlt, (h.fresh id hlt).mp hid⟩
  rw [hfresh.length_eq, ← hsound.queue_perm.length_eq, List.nil_append, queue, List.length_append,
    Nat.add_comm]

end Course

/-! ## The end -/

section Ends

variable {config : Config} {purpose : Purpose} {consistent : Bool} {orders : List Order}
  {size : Nat} {start last after : Batch} {exchanges : List (Exchanged Running)}
  {outcome : Except Error Unit}

/-- At the end of a run that no failure of a request ended, the slots that wait for another try are
    all that are left, or they fill a round. -/
theorem Tried.length_retry (hstart : Sound start []) (hfault : start.fault? = none)
    (h : Tried (roundSize config start.purpose) start exchanges last)
    (hends : Ends (run config) ⟨start, 0⟩ exchanges (outcome, after))
    (hfinish : last.finish = (outcome, after))
    (hle : last.retry.length ≤ last.pending.length) :
    last.retry.length = min (roundSize config start.purpose) last.pending.length := by
  have hpending : after.pending = last.pending := by
    have hafter : after = last.finish.2 := congrArg Prod.snd hfinish.symm
    rw [hafter, (fills_finish last).pending]
  by_cases hnone : last.pending = []
  · rw [hnone] at hle ⊢
    simp only [List.length_nil, Nat.min_zero] at hle ⊢
    omega
  · have houtcome : outcome = .ok () ∨ outcome = .error (.batch after.report) := by
      have := last.finish_cases
      rwa [hfinish] at this
    have hstalls := stalls_of_ends hstart hfault hends houtcome (hpending ▸ hnone)
    rw [hpending] at hstalls
    rcases List.eq_nil_or_concat exchanges with rfl | ⟨earlier, final, rfl⟩
    · cases hstalls
    · refine h.full final (by simp) ?_
      by_contra hne
      rw [List.concat_eq_append, List.reverse_append, List.reverse_singleton,
        List.singleton_append, stalls, if_neg hne] at hstalls
      omega

/-- All items with a key have been carried exactly if no slot is one that no request has carried. -/
theorem Registered.carried_iff (h : Registered purpose consistent orders start)
    (exchanges : List (Exchanged Running)) :
    (∀ order ∈ orders, ∀ position entry, order.entryAt? purpose position = some entry →
        ∃ id, start.holdsItem order.table position id = true ∧
          start.timesCarried exchanges id ≠ 0) ↔
      ((List.range start.slots.length).filter fun id =>
        start.timesCarried exchanges id = 0) = [] := by
  rw [List.filter_eq_nil_iff]
  constructor
  · intro hall id hid hzero
    obtain ⟨order, horder, position, entry, hentry, hholds⟩ :=
      h.exists_position (List.mem_range.mp hid)
    obtain ⟨other, hother, hcarried⟩ := hall order horder position entry hentry
    rw [h.eq_of_holdsItem hother hholds] at hcarried
    exact hcarried (of_decide_eq_true hzero)
  · intro hnone order horder position entry hentry
    obtain ⟨id, slot, hslot, -, -, hholds⟩ := h.exists_holdsItem horder hentry
    have hlt := (List.getElem?_eq_some_iff.mp hslot).1
    exact ⟨id, hholds, fun hzero => hnone id (List.mem_range.mpr hlt) (decide_eq_true hzero)⟩

/-- A slot that is not pending at the end has been carried, and the items of one that is are
    reported, by a batch that writes with the number of requests that carried the slot. -/
theorem Tried.carried_or_reported (h : Tried size start exchanges last)
    (hcourse : Course size start exchanges last)
    (hregistered : Registered purpose consistent orders start) {order : Order}
    (horder : order ∈ orders) {position : Nat} {entry : Entry}
    (hentry : order.entryAt? purpose position = some entry) :
    ∃ id, start.holdsItem order.table position id = true ∧
      (id ∉ last.pending → start.timesCarried exchanges id ≠ 0) ∧
      (id ∈ last.pending → last.finish.2.report.get? order.table position =
        some (if purpose = .get then .notFound
          else .unprocessed (start.timesCarried exchanges id))) := by
  obtain ⟨id, slot, hslot, -, -, hholds⟩ := hregistered.exists_holdsItem horder hentry
  have hlt := (List.getElem?_eq_some_iff.mp hslot).1
  have hsound := hcourse.sound hregistered.sound
  refine ⟨id, hholds, fun hid hzero => ?_, fun hid => ?_⟩
  · have hwaits : id ∈ last.queue := List.mem_append_right _ ((h.fresh id hlt).mpr hzero)
    exact hid (hsound.queue_perm.mem_iff.mp hwaits)
  · obtain ⟨current, -, hcurrent, -⟩ := hsound.exists_slot hid
    rw [hcourse.get?_finish hregistered hid hholds, leftover, hcourse.keeps.purpose,
      hregistered.frame.1, hcurrent, Option.map_some, Option.getD_some,
      h.attempts id current hcurrent]

end Ends

/-- Whatever orders a batch is made of, each for another table: at the end of a run that no failure
    of a request ended, as many slots have been carried by no request as there are more slots
    pending than a round takes; so all items with a key have been carried exactly if what is pending
    fits into a round. A slot that is no longer pending has been carried; the items of one that is
    are reported, by a batch that writes with the number of requests that carried the slot. A batch
    with a table that is registered twice sends nothing and fails. -/
theorem uncarried_of_ends (config : Config) (purpose : Purpose) (consistent : Bool)
    (orders : List Order) (hitems : ∀ order ∈ orders, ∀ item ∈ order.items, item.Canonical) :
    let start := ofOrders purpose consistent orders
    ∀ exchanges outcome after, Ends (run config) ⟨start, 0⟩ exchanges (outcome, after) →
      (∀ activity cause, outcome ≠ .error (.transport activity cause)) →
        if (orders.map Order.table).Nodup then
          ((List.range start.slots.length).filter fun id =>
              start.timesCarried exchanges id = 0).length =
            after.pending.length - roundSize config purpose ∧
          ((∀ order ∈ orders, ∀ position entry, order.entryAt? purpose position = some entry →
              ∃ id, start.holdsItem order.table position id = true ∧
                start.timesCarried exchanges id ≠ 0) ↔
            after.pending.length ≤ roundSize config purpose) ∧
          ∀ order ∈ orders, ∀ position entry, order.entryAt? purpose position = some entry →
            ∃ id, start.holdsItem order.table position id = true ∧
              (id ∉ after.pending → start.timesCarried exchanges id ≠ 0) ∧
              (id ∈ after.pending → after.report.get? order.table position =
                some (if purpose = .get then .notFound
                  else .unprocessed (start.timesCarried exchanges id)))
        else exchanges = [] ∧ ∃ table, outcome = .error (.duplicateTable table) := by
  intro start exchanges outcome after hends houtcome
  rcases ofOrders_cases purpose consistent orders with ⟨hnodup, h⟩ | ⟨hnot, table, hfault⟩
  · rw [if_pos hnodup]
    replace h : Registered purpose consistent orders start := h
    obtain ⟨hpurpose, hfault, -⟩ := h.frame
    obtain ⟨last, hcourse, hfinish⟩ := (Course.of_ends h.sound hfault hends).resolve_right
      fun ⟨cause, hfailed, _⟩ => houtcome _ cause hfailed
    obtain rfl : after = last.finish.2 := congrArg Prod.snd hfinish.symm
    rw [(fills_finish last).pending]
    have htried := Tried.of_course h (h.sentApart hitems) hcourse
    have hlength := htried.length_uncarried hcourse h.sound
    have hretry := htried.length_retry h.sound hfault hends hfinish (by omega)
    rw [hpurpose] at hretry
    have huncarried : ((List.range start.slots.length).filter fun id =>
        start.timesCarried exchanges id = 0).length =
          last.pending.length - roundSize config purpose := by omega
    refine ⟨huncarried, ?_, fun order horder position entry hentry =>
      htried.carried_or_reported hcourse h horder hentry⟩
    rw [h.carried_iff, ← List.length_eq_zero_iff, huncarried]
    exact Nat.sub_eq_zero_iff_le
  · rw [if_neg hnot]
    obtain ⟨hnil, hresult⟩ := ends_of_fault hfault hends
    exact ⟨hnil, table, congrArg Prod.fst hresult⟩

/-- Settings under which a batch sends one item at a time and stands no round without progress. -/
def oneByOne : Config := { batchWriteSize := 1, maxBatchRetries := 0 }

/-- The reply of a store that leaves the first of two items undone. -/
def refusalOfFirst : Reply :=
  replyWith (⟨[("T", [.put [("id", .string "x")]])]⟩ : Protocol.BatchWriteReply)

/-- The batch is over once the store has refused the first item. -/
theorem ends_oneByOne :
    ∃ last after, Ends (run oneByOne) ⟨ofOrders .put false [declaredItems], 0⟩ [last]
        (.error (.batch after.report), after) ∧ after.pending.length = 2 ∧
      after.report.get? "T" 1 = some (.unprocessed 0) ∧
      (ofOrders .put false [declaredItems]).carries 1 last.request = false := by
  have hask : run oneByOne ⟨ofOrders .put false [declaredItems], 0⟩ = .ask _ _ := rfl
  exact ⟨_, _, .answered .start hask refusalOfFirst rfl, by decide, by decide, by decide⟩

/-- Of the two items one is given up that no request has carried. -/
theorem uncarried_of_ends_oneByOne :
    let start := ofOrders .put false [declaredItems]
    ∃ last after, Ends (run oneByOne) ⟨start, 0⟩ [last] (.error (.batch after.report), after) ∧
      ((List.range start.slots.length).filter fun id =>
        start.timesCarried [last] id = 0).length = 1 := by
  intro start
  have hitems : ∀ order ∈ [declaredItems], ∀ item ∈ order.items, item.Canonical := by
    simp [declaredItems, Json.Canonical, Json.CanonicalFields, Dict.Sorted]
  obtain ⟨last, after, hends, hpending, -, -⟩ := ends_oneByOne
  have hresult := uncarried_of_ends oneByOne .put false [declaredItems] hitems _ _ _ hends
    (fun _ _ h => by cases h)
  rw [if_pos (by decide)] at hresult
  exact ⟨last, after, hends, by rw [hresult.1, hpending]; rfl⟩

/-- An item with a key is given up although no request has carried it. -/
theorem unsent_oneByOne :
    ∃ entry exchanges after, declaredItems.entryAt? .put 1 = some entry ∧
      Ends (run oneByOne) ⟨ofOrders .put false [declaredItems], 0⟩ exchanges
        (.error (.batch after.report), after) ∧
      after.report.get? "T" 1 = some (.unprocessed 0) ∧
      ∀ exchange ∈ exchanges,
        (ofOrders .put false [declaredItems]).carries 1 exchange.request = false := by
  obtain ⟨last, after, hends, -, hreport, hcarries⟩ := ends_oneByOne
  exact ⟨_, [last], after, rfl, hends, hreport, by simpa using hcarries⟩

end TableClient.Batch
