import Mathlib
import TableClient.Batch.Run
import TableClient.Proofs.Dict

/-!
# What a finished batch reports

At its end a batch reports every item of every slot that is still pending. A batch has failed
exactly if it reports an item.

Results:
* `Recorded.sorted`: a report stays in order, whatever errors are recorded.
* `size_eq_zero_iff`, `nodup_toList`: what a report in order lists.
* `get?_finish_of_pending`, `get?_finish_of_not_pending`: what is reported at the end.
* `finish_outcome`: a batch succeeds exactly if it reports nothing.
-/

namespace TableClient

namespace BatchReport

/-! ## Reports in order -/

/-- The names of the tables increase, and so do the positions of each table. -/
structure Sorted (report : BatchReport) : Prop where
  tables : Dict.Sorted report.tables
  positions : ∀ entry ∈ report.tables, entry.2.Pairwise fun item other => item.1 < other.1

/-- A report, once some more errors have been recorded. -/
inductive Recorded (before : BatchReport) : BatchReport → Prop
  | refl : Recorded before before
  | record {report : BatchReport} (h : Recorded before report) (table : String) (position : Nat)
      (error : ItemError) : Recorded before (report.record table position error)

theorem mem_insertAt {position : Nat} {error : ItemError} {items : List (Nat × ItemError)}
    {item : Nat × ItemError} (h : item ∈ insertAt position error items) :
    item.1 = position ∨ item ∈ items := by
  induction items with
  | nil => exact Or.inl (congrArg Prod.fst (List.mem_singleton.mp h))
  | cons first rest ih =>
    simp only [insertAt] at h
    split_ifs at h
    · exact (List.mem_cons.mp h).imp_left (congrArg Prod.fst)
    · exact (List.mem_cons.mp h).imp (congrArg Prod.fst) (List.mem_cons_of_mem _)
    · rcases List.mem_cons.mp h with rfl | hrest
      · exact Or.inr List.mem_cons_self
      · exact (ih hrest).imp_right (List.mem_cons_of_mem _)

theorem pairwise_insertAt {items : List (Nat × ItemError)}
    (h : items.Pairwise fun item other => item.1 < other.1) (position : Nat) (error : ItemError) :
    (insertAt position error items).Pairwise fun item other => item.1 < other.1 := by
  induction items with
  | nil => exact List.pairwise_singleton _ _
  | cons first rest ih =>
    obtain ⟨hfirst, hrest⟩ := List.pairwise_cons.mp h
    simp only [insertAt]
    split_ifs with hlt heq
    · refine List.pairwise_cons.mpr ⟨fun item hitem => ?_, h⟩
      rcases List.mem_cons.mp hitem with rfl | hmem
      · exact hlt
      · exact hlt.trans (hfirst item hmem)
    · exact List.pairwise_cons.mpr ⟨fun item hitem => heq ▸ hfirst item hitem, hrest⟩
    · refine List.pairwise_cons.mpr ⟨fun item hitem => ?_, ih hrest⟩
      rcases mem_insertAt hitem with hposition | hmem
      · show first.1 < item.1
        omega
      · exact hfirst item hmem

theorem Sorted.record {report : BatchReport} (h : Sorted report) (table : String)
    (position : Nat) (error : ItemError) : Sorted (report.record table position error) := by
  let items := insertAt position error ((Dict.get? report.tables table).getD [])
  have htables : Dict.Sorted (Dict.insert report.tables table items) :=
    Dict.sorted_insert h.tables _ _
  refine ⟨htables, fun entry hentry => ?_⟩
  have hget := Dict.get?_of_mem htables hentry
  rw [Dict.get?_insert] at hget
  split_ifs at hget
  · -- the table of the error: its positions were in order, or it had none
    rw [← Option.some.inj hget]
    refine pairwise_insertAt ?_ position error
    cases hold : Dict.get? report.tables table with
    | none => exact List.Pairwise.nil
    | some old => exact h.positions (table, old) (Dict.mem_of_get? hold)
  · exact h.positions entry (Dict.mem_of_get? hget)

/-- A report stays in order, whatever errors are recorded. -/
theorem Recorded.sorted {before after : BatchReport} (h : Recorded before after)
    (hbefore : Sorted before) : Sorted after := by
  induction h with
  | refl => exact hbefore
  | record h table position error ih => exact ih.record table position error

theorem Recorded.trans {before between after : BatchReport} (h : Recorded before between)
    (h' : Recorded between after) : Recorded before after := by
  induction h' with
  | refl => exact h
  | record h' table position error ih => exact ih.record table position error

/-- A report in order lists every position once. -/
theorem nodup_toList {report : BatchReport} (h : Sorted report) :
    (report.toList.map fun entry => (entry.1, entry.2.1)).Nodup := by
  rw [toList, List.map_flatMap]
  simp only [List.map_map]
  refine List.nodup_flatMap.mpr ⟨fun entry hentry => ?_, ?_⟩
  · exact List.pairwise_map.mpr
      ((h.positions entry hentry).imp fun hlt heq => absurd (Prod.mk.inj heq).2 hlt.ne)
  · refine h.tables.imp fun hlt => ?_
    rintro ⟨table, position⟩ hmem hmem'
    obtain ⟨item, -, hitem⟩ := List.mem_map.mp hmem
    obtain ⟨item', -, hitem'⟩ := List.mem_map.mp hmem'
    have hname := (Prod.mk.inj (hitem.trans hitem'.symm)).1
    exact String.lt_irrefl _ (hname ▸ hlt)

/-- A report is empty exactly if it has no error at any position. -/
theorem size_eq_zero_iff {report : BatchReport} (h : Sorted report) :
    report.size = 0 ↔ ∀ table position, report.get? table position = none := by
  rw [size, List.length_eq_zero_iff, toList, List.flatMap_eq_nil_iff]
  constructor
  · intro hempty table position
    cases htable : Dict.get? report.tables table with
    | none => simp [get?, htable]
    | some items =>
      have hitems := hempty (table, items) (Dict.mem_of_get? htable)
      obtain rfl := List.map_eq_nil_iff.mp hitems
      simp [get?, htable]
  · rintro hnone ⟨table, items⟩ hmem
    cases items with
    | nil => rfl
    | cons item items =>
      have := hnone table item.1
      rw [get?, Dict.get?_of_mem h.tables hmem, Option.getD_some] at this
      simp at this

end BatchReport

namespace Batch

/-- Whether a slot has the item at a position of a table. -/
def holdsItem (batch : Batch) (table : String) (position id : Nat) : Bool :=
  (batch.slots[id]?).any fun slot =>
    batch.tableName slot.table = table ∧ position ∈ slot.positions

theorem holdsItem_iff {batch : Batch} {table : String} {position id : Nat} :
    batch.holdsItem table position id = true ↔ ∃ slot, batch.slots[id]? = some slot ∧
      batch.tableName slot.table = table ∧ position ∈ slot.positions := by
  simp [holdsItem, Option.any_eq_true]

/-! ## Failed slots -/

/-- A slot that fails changes nothing but the report. -/
theorem failSlot_eq (batch : Batch) (error : ItemError) (id : Nat) :
    ∃ report, batch.failSlot error id = { batch with report } := by
  unfold failSlot
  cases batch.slots[id]? with
  | none => exact ⟨batch.report, rfl⟩
  | some slot => exact ⟨_, rfl⟩

theorem get?_recordAll (report : BatchReport) (name : String) (positions : List Nat)
    (error : ItemError) (table : String) (position : Nat) :
    (positions.foldl (fun report position => report.record name position error) report).get?
        table position =
      if name = table ∧ position ∈ positions then some error else report.get? table position := by
  induction positions generalizing report with
  | nil => simp
  | cons first positions ih =>
    rw [List.foldl_cons, ih, BatchReport.get?_record]
    by_cases hname : name = table
    · by_cases hmem : position ∈ positions
      · simp [hname, hmem]
      · simp [hname, hmem]
    · have hname' : table ≠ name := fun h => hname h.symm
      simp [hname, hname']

/-- A slot that fails is reported at its items and nowhere else. -/
theorem get?_failSlot (batch : Batch) (error : ItemError) (id : Nat) (table : String)
    (position : Nat) :
    (batch.failSlot error id).report.get? table position =
      if batch.holdsItem table position id then some error
      else batch.report.get? table position := by
  unfold failSlot holdsItem
  cases batch.slots[id]? with
  | none => rfl
  | some slot =>
    simp only [get?_recordAll, Option.any_some, decide_eq_true_eq]

theorem recorded_failSlot (batch : Batch) (error : ItemError) (id : Nat) :
    batch.report.Recorded (batch.failSlot error id).report := by
  unfold failSlot
  cases batch.slots[id]? with
  | none => exact .refl
  | some slot =>
    have hall : ∀ (positions : List Nat) {report : BatchReport}, batch.report.Recorded report →
        batch.report.Recorded (positions.foldl (fun report position =>
          report.record (batch.tableName slot.table) position error) report) := by
      intro positions
      induction positions with
      | nil => exact fun h => h
      | cons position positions ih => exact fun h => ih (h.record _ position error)
    exact hall slot.positions .refl

/-! ## The end of a batch -/

/-- What a slot that is still pending has failed with. -/
def leftover (batch : Batch) (id : Nat) : ItemError :=
  if batch.purpose = .get then .notFound
  else .unprocessed ((batch.slots[id]?.map Slot.attempts).getD 0)

/-- The batch after some slots have failed. -/
def failAll (batch : Batch) (ids : List Nat) : Batch :=
  ids.foldl (fun batch id => batch.failSlot (batch.leftover id) id) batch

/-- Slots that fail change nothing but the report. -/
theorem failAll_eq (batch : Batch) (ids : List Nat) :
    ∃ report, batch.failAll ids = { batch with report } := by
  induction ids generalizing batch with
  | nil => exact ⟨batch.report, rfl⟩
  | cons id ids ih =>
    obtain ⟨first, hfirst⟩ := failSlot_eq batch (batch.leftover id) id
    obtain ⟨report, hrest⟩ := ih (batch.failSlot (batch.leftover id) id)
    refine ⟨report, hrest.trans ?_⟩
    rw [hfirst]

theorem finish_eq (batch : Batch) :
    batch.finish =
      (if (batch.failAll batch.pending).report.size = 0 then .ok ()
        else .error (.batch (batch.failAll batch.pending).report), batch.failAll batch.pending) :=
  rfl

/-- A batch that ends succeeds, or it fails with its report. -/
theorem finish_cases (batch : Batch) :
    batch.finish.1 = .ok () ∨ batch.finish.1 = .error (.batch batch.finish.2.report) := by
  rw [finish_eq]
  split_ifs
  · exact Or.inl rfl
  · exact Or.inr rfl

/-- What is reported at a position is what the last of the slots that has it failed with. -/
theorem get?_failAll (batch : Batch) (ids : List Nat) (table : String) (position : Nat) :
    (batch.failAll ids).report.get? table position =
      ((ids.filter (batch.holdsItem table position)).getLast?.map batch.leftover).or
        (batch.report.get? table position) := by
  induction ids generalizing batch with
  | nil => rfl
  | cons id ids ih =>
    obtain ⟨report, heq⟩ := failSlot_eq batch (batch.leftover id) id
    have hreport := get?_failSlot batch (batch.leftover id) id table position
    have hcons : batch.failAll (id :: ids) =
        (batch.failSlot (batch.leftover id) id).failAll ids := rfl
    have hholds : (batch.failSlot (batch.leftover id) id).holdsItem table position =
        batch.holdsItem table position := by rw [heq]; rfl
    have hleftover : (batch.failSlot (batch.leftover id) id).leftover = batch.leftover := by
      rw [heq]; rfl
    rw [hcons, ih, hholds, hleftover, hreport, List.filter_cons]
    by_cases hid : batch.holdsItem table position id
    · rw [if_pos hid, if_pos hid, List.getLast?_cons]
      cases (ids.filter (batch.holdsItem table position)).getLast? <;> rfl
    · rw [if_neg hid, if_neg hid]

theorem recorded_failAll (batch : Batch) (ids : List Nat) :
    batch.report.Recorded (batch.failAll ids).report := by
  induction ids generalizing batch with
  | nil => exact .refl
  | cons id ids ih => exact (recorded_failSlot batch _ id).trans (ih _)

/-- An item that no pending slot has is reported as it was before the end. -/
theorem get?_finish_of_not_pending {batch : Batch} {table : String} {position : Nat}
    (h : ∀ id ∈ batch.pending, batch.holdsItem table position id = false) :
    batch.finish.2.report.get? table position = batch.report.get? table position := by
  have hnil : batch.pending.filter (batch.holdsItem table position) = [] :=
    List.filter_eq_nil_iff.mpr fun id hid => by simp [h id hid]
  rw [finish_eq, get?_failAll, hnil]
  rfl

/-- An item that only one pending slot has is reported with the failure of the slot. -/
theorem get?_finish_of_pending {batch : Batch} {table : String} {position id : Nat}
    (hid : id ∈ batch.pending) (hholds : batch.holdsItem table position id = true)
    (hunique : ∀ other ∈ batch.pending, batch.holdsItem table position other = true → other = id) :
    batch.finish.2.report.get? table position = some (batch.leftover id) := by
  have hmem : id ∈ batch.pending.filter (batch.holdsItem table position) :=
    List.mem_filter.mpr ⟨hid, hholds⟩
  rw [finish_eq, get?_failAll]
  cases hlast : (batch.pending.filter (batch.holdsItem table position)).getLast? with
  | none =>
    rw [List.getLast?_eq_none_iff.mp hlast] at hmem
    exact absurd hmem List.not_mem_nil
  | some last =>
    obtain ⟨hpending, hlastHolds⟩ := List.mem_filter.mp (List.mem_of_getLast? hlast)
    rw [hunique last hpending hlastHolds]
    rfl

/-- A batch succeeds exactly if it reports nothing at its end; else it fails with its report. -/
theorem finish_outcome {batch : Batch} (h : batch.report.Sorted) :
    (batch.finish.1 = .ok () ↔
        ∀ table position, batch.finish.2.report.get? table position = none) ∧
      (batch.finish.1 = .ok () ∨ batch.finish.1 = .error (.batch batch.finish.2.report)) := by
  refine ⟨?_, batch.finish_cases⟩
  have hsize := BatchReport.size_eq_zero_iff ((recorded_failAll batch batch.pending).sorted h)
  rw [finish_eq]
  by_cases hzero : (batch.failAll batch.pending).report.size = 0
  · rw [if_pos hzero]
    exact ⟨fun _ => hsize.mp hzero, fun _ => rfl⟩
  · rw [if_neg hzero]
    refine ⟨fun hok => ?_, fun hnone => absurd (hsize.mpr hnone) hzero⟩
    cases hok

end Batch

end TableClient
