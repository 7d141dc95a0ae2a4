import Mathlib
import TableClient.Proofs.Batch.Round

/-!
# How full a round is

A round takes the slots that wait for another try first, and then fresh ones. It takes as many slots
as it may, or all that wait.

Results:
* `length_sweeps`: sweeps take as many fresh slots as there is room for.
* `Sound.mem_fresh_sent`: the slots that are fresh after a round is taken.
* `length_round`: the number of slots in a round.
-/

namespace TableClient.Batch

/-! ## Sweeps -/

/-- A sweep that has room takes a fresh slot if there is one. -/
theorem length_sweep_pos {share room : Nat} (hshare : 0 < share) (hroom : 0 < room)
    {tables : List Table} (h : tables.flatMap Table.fresh ≠ []) :
    0 < (sweep share room tables).1.length := by
  induction tables with
  | nil => exact absurd rfl h
  | cons table tables ih =>
    simp only [sweep, List.length_append, List.length_take]
    cases hfresh : table.fresh with
    | nil =>
      have hrest := ih (by simpa [hfresh] using h)
      simpa using hrest
    | cons id rest =>
      rw [List.length_cons]
      omega

theorem length_sweep_add (share room : Nat) (tables : List Table) :
    (sweep share room tables).1.length +
      ((sweep share room tables).2.flatMap Table.fresh).length =
        (tables.flatMap Table.fresh).length := by
  rw [← List.length_append]
  exact (sweep_perm share room tables).1.length_eq

/-- As many sweeps as there is room take as many fresh slots as there is room for. -/
theorem length_sweeps {share count room : Nat} (hshare : 0 < share) (hcount : room ≤ count)
    (tables : List Table) :
    (sweeps share count room tables).1.length =
      min room (tables.flatMap Table.fresh).length := by
  induction count generalizing room tables with
  | zero =>
    obtain rfl : room = 0 := by omega
    simp [sweeps]
  | succ count ih =>
    have hle := length_sweep_le share room tables
    have hadd := length_sweep_add share room tables
    have hpos : 0 < room → tables.flatMap Table.fresh ≠ [] →
        0 < (sweep share room tables).1.length := fun hroom => length_sweep_pos hshare hroom
    rw [← List.length_pos_iff] at hpos
    simp only [sweeps, List.length_append]
    by_cases hzero : (sweep share room tables).1.length = 0
    · -- nothing is taken: there is no room, or there are no fresh slots
      have hmore := length_sweeps_le share count (room - (sweep share room tables).1.length)
        (sweep share room tables).2
      have hmoreAdd := (sweeps_perm share count (room - (sweep share room tables).1.length)
        (sweep share room tables).2).1.length_eq
      rw [List.length_append] at hmoreAdd
      omega
    · rw [ih (by omega)]
      omega

/-! ## Rounds -/

/-- The slots of a round: those that wait for another try first. -/
theorem round_eq (batch : Batch) (size : Nat) :
    ∃ fresh, batch.round size = batch.retry.take size ++ fresh ∧
      fresh.length = min (size - batch.retry.length) (batch.tables.flatMap Table.fresh).length := by
  refine ⟨_, rfl, ?_⟩
  rw [length_sweeps (by omega) le_rfl, List.length_take]
  congr 1
  omega

/-- The slots that are fresh after a round is taken: those that were, but for those of the round. -/
theorem Sound.mem_fresh_sent {batch : Batch} (h : Sound batch []) (size id : Nat) :
    id ∈ (batch.sent size).tables.flatMap Table.fresh ↔
      id ∈ batch.tables.flatMap Table.fresh ∧ id ∉ batch.round size := by
  let room := size - (batch.retry.take size).length
  let share := max (room / batch.tables.countP fun table => !table.fresh.isEmpty) 1
  let taken := (sweeps share room room batch.tables).1
  have hround : batch.round size = batch.retry.take size ++ taken := rfl
  have hperm : (taken ++ (batch.sent size).tables.flatMap Table.fresh).Perm
      (batch.tables.flatMap Table.fresh) := (sweeps_perm share room room batch.tables).1
  have hqueue : batch.queue.Nodup := h.queue_perm.nodup_iff.mpr h.pending_nodup
  obtain ⟨-, hfresh, hdisjoint⟩ := List.nodup_append.mp hqueue
  have htaken := (List.nodup_append.mp (hperm.nodup_iff.mpr hfresh)).2.2
  rw [hround, List.mem_append, ← hperm.mem_iff, List.mem_append]
  constructor
  · intro hid
    refine ⟨Or.inr hid, ?_⟩
    rintro (hretry | hmem)
    · exact hdisjoint id (List.mem_of_mem_take hretry) id
        (hperm.mem_iff.mp (List.mem_append_right _ hid)) rfl
    · exact htaken id hmem id hid rfl
  · rintro ⟨hmem | hid, hnot⟩
    · exact absurd (Or.inr hmem) hnot
    · exact hid

/-- A round takes as many slots as it may, or all that wait. -/
theorem length_round (batch : Batch) (size : Nat) :
    (batch.round size).length = min size batch.queue.length := by
  obtain ⟨fresh, hround, hfresh⟩ := batch.round_eq size
  rw [hround, queue, List.length_append, List.length_append, hfresh, List.length_take]
  omega

/-- A round takes no more slots than it may. -/
theorem length_round_le (batch : Batch) (size : Nat) : (batch.round size).length ≤ size :=
  length_collect_le size batch

/-- While slots wait, a round is not empty. -/
theorem round_ne_nil {batch : Batch} {size : Nat} (hsize : 0 < size) (h : batch.queue ≠ []) :
    batch.round size ≠ [] := by
  rw [← List.length_pos_iff] at h ⊢
  rw [length_round]
  omega

end TableClient.Batch
