import Mathlib
import TableClient.Proofs.Batch.Arena
import TableClient.Proofs.Batch.Collect
import TableClient.Proofs.Batch.Unsent

/-!
# How tables share a round

What the slots that wait for another try leave of a round is shared by the tables that have fresh
slots. Each table gives slots from the front of its queue, and none gives less than its share as
long as it has that many. In the round the slots of one table stand in the order of its queue,
although the sweeps mix them with those of others.

Results:
* `shares_sweep`, `shares_sweeps`: what sweeps take of each table and what they leave.
* `exists_shares`: a round is made of slots that wait for another try and of shares of the tables.
* `collect_shares`: the rounds of a batch in any of its states.
-/

namespace TableClient.Batch

/-! ## Shares -/

/-- The slots taken of one table, in the order in which they were taken. -/
def Table.givenTo (table : Table) (taken : List Nat) : List Nat :=
  taken.filter fun id => id ∈ table.fresh

@[simp] theorem Table.givenTo_append (table : Table) (taken more : List Nat) :
    table.givenTo (taken ++ more) = table.givenTo taken ++ table.givenTo more :=
  List.filter_append ..

theorem Table.givenTo_of_disjoint {table : Table} {taken : List Nat}
    (h : taken.Disjoint table.fresh) : table.givenTo taken = [] :=
  List.filter_eq_nil_iff.mpr fun _ hid hmem => h hid (of_decide_eq_true hmem)

/-- What is taken of a table comes from the front of its queue, is at least a share of so many slots
    or all there are, and leaves the table as it was but for its queue. -/
structure Table.Gives (share : Nat) (taken : List Nat) (table left : Table) : Prop where
  drained : left.drained = table.drained
  split : table.givenTo taken ++ left.fresh = table.fresh
  share_le : min share table.fresh.length ≤ (table.givenTo taken).length

/-- Slots are taken out of the queues of tables, of each table at least a share. -/
def Shares (share : Nat) (taken : List Nat) : List Table → List Table → Prop :=
  List.Forall₂ (Table.Gives share taken)

variable {share room count : Nat} {taken more : List Nat} {tables between rest : List Table}

theorem Shares.refl (tables : List Table) : Shares 0 [] tables tables :=
  List.forall₂_same.mpr fun table _ => ⟨rfl, rfl, by simp⟩

/-- What is taken of other tables before does not count. -/
theorem Shares.append_left {others : List Nat} (h : Shares share taken tables rest)
    (hothers : others.Disjoint (tables.flatMap Table.fresh)) :
    Shares share (others ++ taken) tables rest := by
  induction h with
  | nil => exact .nil
  | @cons table left tables rest hgives _ ih =>
    rw [List.flatMap_cons, List.disjoint_append_right] at hothers
    have hgiven : table.givenTo (others ++ taken) = table.givenTo taken := by
      rw [Table.givenTo_append, Table.givenTo_of_disjoint hothers.1, List.nil_append]
    refine .cons ⟨hgives.drained, ?_, ?_⟩ (ih hothers.2)
    · rw [hgiven, hgives.split]
    · rw [hgiven]
      exact hgives.share_le

/-- What is taken first and what is taken of what is left are taken together. -/
theorem Shares.trans (h : Shares share taken tables between) (h' : Shares 0 more between rest)
    (hdisjoint : taken.Disjoint more) : Shares share (taken ++ more) tables rest := by
  induction h generalizing rest with
  | nil =>
    cases h'
    exact .nil
  | @cons table middle tables between hgives _ ih =>
    obtain _ | ⟨hmore, hrest⟩ := h'
    have hgiven : table.givenTo (taken ++ more) = table.givenTo taken ++ middle.givenTo more := by
      rw [Table.givenTo_append]
      congr 1
      refine List.filter_congr fun id hid => ?_
      rw [← hgives.split, decide_eq_decide, List.mem_append]
      exact or_iff_right fun hmem => hdisjoint (List.mem_of_mem_filter hmem) hid
    refine .cons ⟨hmore.drained.trans hgives.drained, ?_, ?_⟩ (ih hrest)
    · rw [hgiven, List.append_assoc, hmore.split, hgives.split]
    · rw [hgiven, List.length_append]
      exact hgives.share_le.trans (Nat.le_add_right _ _)

/-! ## Sweeps -/

/-- What a sweep takes of each table: its share, if there is room for the shares of all tables that
    have fresh slots. -/
theorem shares_sweep {due : Nat} (hnodup : (tables.flatMap Table.fresh).Nodup)
    (hdue : due = 0 ∨ due = share ∧ share * (tables.countP fun table => table.fresh ≠ []) ≤ room) :
    Shares due (sweep share room tables).1 tables (sweep share room tables).2 := by
  induction tables generalizing room with
  | nil => exact .nil
  | cons table tables ih =>
    rw [List.flatMap_cons, List.nodup_append'] at hnodup
    obtain ⟨-, hrest, hdisjoint⟩ := hnodup
    let front := table.fresh.take (min share room)
    let later := sweep share (room - front.length) tables
    have hfront : front.length = min (min share room) table.fresh.length := List.length_take
    have hlater : later.1 ⊆ tables.flatMap Table.fresh := fun id hid =>
      (sweep_perm share (room - front.length) tables).1.subset (List.mem_append_left _ hid)
    have hgiven : table.givenTo (front ++ later.1) = front := by
      rw [Table.givenTo_append,
        Table.givenTo_of_disjoint fun _ hid hmem => hdisjoint hmem (hlater hid), List.append_nil]
      exact List.filter_eq_self.mpr fun id hid => decide_eq_true (List.mem_of_mem_take hid)
    -- a table without fresh slots uses no room, and any other one uses its share at most
    have hroom : due = 0 ∨ due = share ∧ (table.fresh = [] ∨ share ≤ room) ∧
        share * (tables.countP fun table => table.fresh ≠ []) ≤ room - front.length := by
      refine hdue.imp_right fun ⟨hshare, hle⟩ => ⟨hshare, ?_⟩
      by_cases hempty : table.fresh = []
      · rw [List.countP_cons_of_neg (by simpa using hempty)] at hle
        rw [hempty, List.length_nil] at hfront
        exact ⟨Or.inl hempty, by omega⟩
      · rw [List.countP_cons_of_pos (by simpa using hempty), Nat.mul_succ] at hle
        exact ⟨Or.inr (by omega), by omega⟩
    refine .cons ⟨rfl, ?_, ?_⟩ (Shares.append_left (ih hrest ?_) ?_)
    · show table.givenTo (front ++ later.1) ++ _ = _
      rw [hgiven]
      exact List.take_append_drop _ _
    · show _ ≤ (table.givenTo (front ++ later.1)).length
      rw [hgiven, hfront]
      rcases hroom with hzero | ⟨rfl, hempty | hle, -⟩
      · omega
      · rw [hempty, List.length_nil]
        omega
      · omega
    · exact hroom.imp_right fun h => ⟨h.1, h.2.2⟩
    · exact fun id hid hmem => hdisjoint (List.mem_of_mem_take hid) hmem

/-- What sweeps take of each table: the first of them takes the shares. -/
theorem shares_sweeps {due : Nat} (hnodup : (tables.flatMap Table.fresh).Nodup)
    (hdue : due = 0 ∨ 0 < count ∧ due = share ∧
      share * (tables.countP fun table => table.fresh ≠ []) ≤ room) :
    Shares due (sweeps share count room tables).1 tables (sweeps share count room tables).2 := by
  induction count generalizing due room tables with
  | zero =>
    obtain rfl := hdue.resolve_right fun h => h.1.false
    exact .refl tables
  | succ count ih =>
    have hperm := (sweep_perm share room tables).1
    obtain ⟨-, hbetween, hdisjoint⟩ := List.nodup_append'.mp (hperm.nodup_iff.mpr hnodup)
    refine (shares_sweep hnodup (hdue.imp_right And.right)).trans (ih hbetween (Or.inl rfl)) ?_
    refine fun id hid hmore => hdisjoint hid ?_
    exact (sweeps_perm share count _ _).1.subset (List.mem_append_left _ hmore)

/-! ## Rounds -/

/-- A round of any size is made of slots that wait for another try and of fresh ones, of each table
    with fresh slots at least the part that each of them has in what the first ones leave. -/
theorem exists_shares {batch : Batch} (hnodup : (batch.tables.flatMap Table.fresh).Nodup)
    (size : ℕ) :
    ∃ fresh rest,
      batch.collect size = (batch.retry.take size ++ fresh,
        { batch with retry := batch.retry.drop size, tables := rest }) ∧
      fresh ⊆ batch.tables.flatMap Table.fresh ∧
      Shares ((size - (batch.retry.take size).length) /
        batch.tables.countP fun table => table.fresh ≠ []) fresh batch.tables rest := by
  let room := size - (batch.retry.take size).length
  let waiting := batch.tables.countP fun table => table.fresh ≠ []
  let swept := sweeps (max (room / waiting) 1) room room batch.tables
  have hactive : batch.tables.countP (fun table => !table.fresh.isEmpty) = waiting :=
    List.countP_congr fun table _ => by simp
  refine ⟨swept.1, swept.2, by rw [collect, hactive], fun id hid => ?_, shares_sweeps hnodup ?_⟩
  · have hperm := (sweeps_perm (max (room / waiting) 1) room room batch.tables).1
    exact hperm.subset (List.mem_append_left _ hid)
  · -- the shares fit into the room, unless there is less than one slot for each table
    rcases Nat.eq_zero_or_pos (room / waiting) with hzero | hpos
    · exact Or.inl hzero
    · have hshare : max (room / waiting) 1 = room / waiting := max_eq_left hpos
      refine Or.inr ⟨hpos.trans_le (Nat.div_le_self room waiting), hshare.symm, ?_⟩
      rw [hshare]
      exact Nat.div_mul_le_self room waiting

/-- In every state of a batch, whatever orders it is made of, a round of any size has as many slots
    as it may, or all that wait, and none twice. First come those that wait for another try, in
    order; then fresh ones, from the front of the queue of each table, in order, and of each table
    with fresh slots at least the part that each of them has in what is left of the round. All other
    slots stay in their queues, and nothing else changes. -/
theorem collect_shares (config : Config) (purpose : Purpose) (consistent : Bool)
    (orders : List Order) {exchanges : List (Exchanged Running)} {state : Running}
    (h : Passes (run config) ⟨ofOrders purpose consistent orders, 0⟩ exchanges state) (size : ℕ) :
    let batch := state.batch
    let retries := batch.retry.take size
    let waiting := batch.tables.countP fun table => table.fresh ≠ []
    ∃ fresh rest,
      batch.collect size =
        (retries ++ fresh, { batch with retry := batch.retry.drop size, tables := rest }) ∧
      (retries ++ fresh).length =
        min size (batch.retry.length + (batch.tables.flatMap Table.fresh).length) ∧
      (retries ++ fresh).Nodup ∧
      (∀ id ∈ fresh, ∃ table ∈ batch.tables, id ∈ table.fresh) ∧
      Shares ((size - retries.length) / waiting) fresh batch.tables rest := by
  intro batch retries waiting
  obtain ⟨accepted, registered, fault?, -, hregistered, hstart, -⟩ :=
    exists_registered purpose consistent orders
  rw [hstart] at h
  have hsound : Sound batch [] := (hregistered.keeps_of_passes fault? h).2
  have hqueue : batch.queue.Nodup := hsound.queue_perm.nodup_iff.mpr hsound.pending_nodup
  obtain ⟨fresh, rest, hcollect, hfresh, hshares⟩ :=
    exists_shares (List.nodup_append.mp hqueue).2.1 size
  have hround : batch.round size = retries ++ fresh := congrArg Prod.fst hcollect
  refine ⟨fresh, rest, hcollect, ?_, ?_, fun id hid => List.mem_flatMap.mp (hfresh hid), hshares⟩
  · rw [← hround, length_round, queue, List.length_append]
  · rw [← hround]
    exact (hsound.collect size).flight_nodup

/-- Three items of a second table. -/
def furtherItems : Order where
  table := "U"
  type := ⟨"item", some { primary := .ofHash "id" }, some⟩
  items := [.object [("id", .string "x")], .object [("id", .string "y")],
    .object [("id", .string "z")]]

/-- A slot that was left undone goes first, and two tables share the other three places: the first
    has a slot for its share, and the second fills up the round. -/
theorem collect_shares_furtherItems :
    ∃ last state rest,
      Passes (run { batchWriteSize := 1 })
        ⟨ofOrders .put false [declaredItems, furtherItems], 0⟩ [last] state ∧
      state.batch.retry = [0] ∧ (state.batch.collect 4).1 = [0, 1, 2, 3] ∧
      Shares 1 [1, 2, 3] state.batch.tables rest := by
  have hask : run { batchWriteSize := 1 }
    ⟨ofOrders .put false [declaredItems, furtherItems], 0⟩ = .ask _ _ := rfl
  obtain ⟨last, state, hpasses, hretry, hround, hwaiting⟩ : ∃ last state,
      Passes (run { batchWriteSize := 1 })
        ⟨ofOrders .put false [declaredItems, furtherItems], 0⟩ [last] state ∧
      state.batch.retry = [0] ∧ (state.batch.collect 4).1 = [0, 1, 2, 3] ∧
      (state.batch.tables.countP fun table => table.fresh ≠ []) = 2 :=
    ⟨_, _, .step .start hask refusalOfFirst rfl, by decide, by decide, by decide⟩
  obtain ⟨fresh, rest, hcollect, -, -, -, hshares⟩ :=
    collect_shares { batchWriteSize := 1 } .put false [declaredItems, furtherItems] hpasses 4
  rw [hcollect, hretry] at hround
  obtain rfl : fresh = [1, 2, 3] := by simpa using hround
  rw [hretry, hwaiting] at hshares
  exact ⟨last, state, rest, hpasses, hretry, by rw [hcollect, hretry]; rfl, hshares⟩

end TableClient.Batch
