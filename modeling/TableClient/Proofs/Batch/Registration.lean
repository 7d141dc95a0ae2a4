import Mathlib
import TableClient.Batch.Basic
import TableClient.Proofs.Key.Identity

/-!
# Slots of registered items

Every item of a batch that has a key is filed: under the bytes that its key is known by, with the
payload to send. The slots of the batch are the keys in the order in which they were first filed;
each holds the positions of all items that have its key, and the payload of the last of them.

Results:
* `Filed.addItem`: filing one more item keeps the slots in step with what was filed.
-/

namespace TableClient.Batch

open MessagePack (Bytes)

/-- An item that was given a key: its table, its position and what it is registered with. -/
structure Filing where
  table : String
  position : Nat
  entry : Entry

namespace Filing

/-- What the key of the item is known by. -/
def key (filing : Filing) : Bytes := filing.entry.layout.identity filing.table filing.entry.key

end Filing

/-- The filings with a key, in order. -/
def filedUnder (log : List Filing) (key : Bytes) : List Filing :=
  log.filter fun filing => filing.key = key

/-! ## Pending slots -/

/-- The pending slot of a key is the pending slot that has the key. -/
theorem mem_of_findPending? {batch : Batch} {key : Bytes} {id : Nat}
    (h : batch.findPending? key = some id) :
    id ∈ batch.pending ∧ ∃ slot, batch.slots[id]? = some slot ∧ slot.key = key := by
  refine ⟨List.mem_of_find?_eq_some h, ?_⟩
  have := List.find?_some h
  cases hslot : batch.slots[id]? with
  | none => simp [hslot] at this
  | some slot => exact ⟨slot, rfl, by simpa [hslot] using this⟩

theorem findPending?_eq_none {batch : Batch} {key : Bytes}
    (h : batch.findPending? key = none) {id : Nat} (hid : id ∈ batch.pending) {slot : Slot}
    (hslot : batch.slots[id]? = some slot) : slot.key ≠ key := by
  have := List.find?_eq_none.mp h id hid
  simpa [hslot] using this

/-! ## Slots in step with what was filed -/

/-- The slot at a place holds what was filed under its key. -/
structure Slot.Holds (slot : Slot) (tables : List Table) (log : List Filing) : Prop where
  attempts : slot.attempts = 0
  positions : slot.positions = (filedUnder log slot.key).map Filing.position
  payload : (filedUnder log slot.key).getLast?.map (fun filing => filing.entry.payload) =
    some slot.payload
  table : ∃ table, tables[slot.table]? = some table ∧ ∀ filing ∈ log, filing.key = slot.key →
    filing.table = table.name ∧ filing.entry.layout ∈ table.layouts

/-- The batch holds exactly what was filed, and has sent none of it. -/
structure Filed (batch : Batch) (log : List Filing) : Prop where
  names_nodup : (batch.tables.map Table.name).Nodup
  pending_eq : batch.pending = List.range batch.slots.length
  retry_eq : batch.retry = []
  fresh_perm : (batch.tables.flatMap Table.fresh).Perm batch.pending
  keys_nodup : (batch.slots.map Slot.key).Nodup
  holds : ∀ slot ∈ batch.slots, slot.Holds batch.tables log
  covers : ∀ filing ∈ log, ∃ slot ∈ batch.slots, slot.key = filing.key
  layouts : ∀ table ∈ batch.tables, ∀ layout ∈ table.layouts,
    ∃ filing ∈ log, filing.table = table.name ∧ filing.entry.layout = layout
  tables_mem : ∀ filing ∈ log, ∃ table ∈ batch.tables, table.name = filing.table

/-! ## Filing one item -/

theorem filedUnder_append (log : List Filing) (filing : Filing) (key : Bytes) :
    filedUnder (log ++ [filing]) key =
      filedUnder log key ++ if filing.key = key then [filing] else [] := by
  by_cases h : filing.key = key <;> simp [filedUnder, List.filter_append, h]

theorem filedUnder_eq_nil {log : List Filing} {key : Bytes}
    (h : ∀ filing ∈ log, filing.key ≠ key) : filedUnder log key = [] := by
  simpa [filedUnder, List.filter_eq_nil_iff] using h

theorem map_modify_of_eq {α β : Type} {f : α → α} {g : α → β} (h : ∀ a, g (f a) = g a)
    (l : List α) (i : Nat) : (l.modify i f).map g = l.map g := by
  apply List.ext_getElem?
  intro j
  rw [List.getElem?_map, List.getElem?_map, List.getElem?_modify]
  cases l[j]? with
  | none => rfl
  | some a => by_cases hij : i = j <;> simp [hij, h]

/-- Where the entries of a list are told apart by what they map to, two places that map to the same
    are one. -/
theorem eq_of_map_eq {α β : Type} {f : α → β} {l : List α} (hnodup : (l.map f).Nodup) {i j : Nat}
    {a b : α} (hi : l[i]? = some a) (hj : l[j]? = some b) (hsame : f a = f b) : i = j := by
  have hlt := (List.getElem?_eq_some_iff.mp hi).1
  refine (List.getElem?_inj (by simpa using hlt) hnodup).mp ?_
  rw [List.getElem?_map, List.getElem?_map, hi, hj, Option.map_some, Option.map_some, hsame]

theorem addLayout_fresh (table : Table) (layout : KeyLayout) :
    (table.addLayout layout).fresh = table.fresh := by
  unfold Table.addLayout
  split <;> rfl

/-- A change of a table that keeps its name and adds one key layout to those it has. -/
structure AddsLayout (layout : KeyLayout) (change : Table → Table) : Prop where
  name : ∀ table, (change table).name = table.name
  layouts : ∀ table other,
    other ∈ (change table).layouts ↔ other ∈ table.layouts ∨ other = layout

theorem addsLayout_addLayout (layout : KeyLayout) : AddsLayout layout (·.addLayout layout) where
  name table := by unfold Table.addLayout; split <;> rfl
  layouts table other := by
    unfold Table.addLayout
    split_ifs with h
    · have : layout ∈ table.layouts := by simpa using h
      constructor
      · exact Or.inl
      · rintro (h | rfl) <;> assumption
    · simp

theorem addsLayout_addFresh (layout : KeyLayout) (id : Nat) :
    AddsLayout layout ((·.addFresh id) ∘ (·.addLayout layout)) where
  name := (addsLayout_addLayout layout).name
  layouts := (addsLayout_addLayout layout).layouts

section AddsLayout

variable {layout : KeyLayout} {change : Table → Table} {tables : List Table} {place : Nat}

theorem AddsLayout.map_name (h : AddsLayout layout change) :
    (tables.modify place change).map Table.name = tables.map Table.name :=
  map_modify_of_eq h.name tables place

/-- A changed table has the layout that was added. -/
theorem AddsLayout.getElem?_place (h : AddsLayout layout change) {table : Table}
    (htable : tables[place]? = some table) :
    ∃ after, (tables.modify place change)[place]? = some after ∧ after.name = table.name ∧
      layout ∈ after.layouts ∧ ∀ other ∈ table.layouts, other ∈ after.layouts := by
  refine ⟨change table, by simp [htable], h.name table, ?_, fun other hother => ?_⟩
  · exact (h.layouts table layout).mpr (Or.inr rfl)
  · exact (h.layouts table other).mpr (Or.inl hother)

/-- Every table keeps its name and its layouts. -/
theorem AddsLayout.getElem? (h : AddsLayout layout change) (place : Nat) {i : Nat} {table : Table}
    (htable : tables[i]? = some table) :
    ∃ after, (tables.modify place change)[i]? = some after ∧ after.name = table.name ∧
      ∀ other ∈ table.layouts, other ∈ after.layouts := by
  by_cases hi : place = i
  · subst hi
    obtain ⟨after, hafter, hname, -, hlayouts⟩ := h.getElem?_place htable
    exact ⟨after, hafter, hname, hlayouts⟩
  · exact ⟨table, by simp [hi, htable], rfl, fun _ hother => hother⟩

/-- Every layout was there before, or was added to the table at the place. -/
theorem AddsLayout.of_mem (h : AddsLayout layout change) {after : Table}
    (hafter : after ∈ tables.modify place change) :
    ∃ table ∈ tables, after.name = table.name ∧ ∀ other ∈ after.layouts,
      other ∈ table.layouts ∨ other = layout ∧ tables[place]? = some table := by
  obtain ⟨i, hi⟩ := List.mem_iff_getElem?.mp hafter
  rw [List.getElem?_modify] at hi
  obtain ⟨table, htable, rfl⟩ := Option.map_eq_some_iff.mp hi
  refine ⟨table, List.mem_of_getElem? htable, ?_⟩
  split_ifs with hplace
  · subst hplace
    refine ⟨h.name table, fun other hother => ?_⟩
    exact ((h.layouts table other).mp hother).imp id fun hnew => ⟨hnew, htable⟩
  · exact ⟨rfl, fun other hother => Or.inl hother⟩

/-- A slot holds what it held as long as nothing is filed under its key. -/
theorem Slot.Holds.append {slot : Slot} {log : List Filing} (hslot : slot.Holds tables log)
    (h : AddsLayout layout change) {filing : Filing} (hne : filing.key ≠ slot.key) :
    slot.Holds (tables.modify place change) (log ++ [filing]) := by
  have hlog : filedUnder (log ++ [filing]) slot.key = filedUnder log slot.key := by
    rw [filedUnder_append, if_neg hne, List.append_nil]
  obtain ⟨table, htable, hfiled⟩ := hslot.table
  obtain ⟨after, hafter, hname, hlayouts⟩ := h.getElem? place htable
  refine ⟨hslot.attempts, by rw [hlog]; exact hslot.positions, by rw [hlog]; exact hslot.payload,
    after, hafter, ?_⟩
  intro other hother hkey
  rcases List.mem_append.mp hother with hmem | hmem
  · obtain ⟨htable, hlayout⟩ := hfiled other hmem hkey
    exact ⟨htable.trans hname.symm, hlayouts _ hlayout⟩
  · rw [List.mem_singleton.mp hmem] at hkey
    exact absurd hkey hne

/-- The slot with one more position and with another payload. -/
def Slot.extend (position : Nat) (payload : AttributeMap) (slot : Slot) : Slot :=
  { slot with positions := slot.positions ++ [position], payload }

/-- A slot that takes a filing of its key holds it along with the others. -/
theorem Slot.Holds.extend {slot : Slot} {log : List Filing} (hslot : slot.Holds tables log)
    (h : AddsLayout layout change) {table : Table} (htable : tables[place]? = some table)
    {position : Nat} {entry : Entry} (hlayout : entry.layout = layout)
    (hplace : slot.table = place) (hkey : slot.key = entry.layout.identity table.name entry.key) :
    (slot.extend position entry.payload).Holds (tables.modify place change)
      (log ++ [⟨table.name, position, entry⟩]) := by
  have hlog : filedUnder (log ++ [⟨table.name, position, entry⟩]) slot.key =
      filedUnder log slot.key ++ [⟨table.name, position, entry⟩] := by
    have hfiling : Filing.key ⟨table.name, position, entry⟩ = slot.key := hkey.symm
    rw [filedUnder_append, if_pos hfiling]
  obtain ⟨other, hother, hfiled⟩ := hslot.table
  obtain rfl : other = table := by
    rw [hplace, htable] at hother
    exact (Option.some.inj hother).symm
  obtain ⟨after, hafter, hname, hnew, hlayouts⟩ := h.getElem?_place htable
  refine ⟨hslot.attempts, ?_, ?_, after, by rw [← hafter, ← hplace]; rfl, ?_⟩
  · change slot.positions ++ [position] = (filedUnder _ slot.key).map Filing.position
    rw [hlog, hslot.positions, List.map_append, List.map_singleton]
  · change (filedUnder _ slot.key).getLast?.map _ = some entry.payload
    rw [hlog, List.getLast?_concat, Option.map_some]
  · intro filing hmem hfiling
    rcases List.mem_append.mp hmem with hmem | hmem
    · obtain ⟨htable, hlayout⟩ := hfiled filing hmem hfiling
      exact ⟨htable.trans hname.symm, hlayouts _ hlayout⟩
    · obtain rfl := List.mem_singleton.mp hmem
      exact ⟨hname.symm, hlayout ▸ hnew⟩

/-- A new slot holds the first filing of its key. -/
theorem Slot.Holds.first {log : List Filing} (h : AddsLayout layout change) {table : Table}
    (htable : tables[place]? = some table) {position : Nat} {entry : Entry}
    (hlayout : entry.layout = layout)
    (hlog : filedUnder log (entry.layout.identity table.name entry.key) = []) :
    Slot.Holds ⟨place, [position], entry.layout.identity table.name entry.key, entry.payload, 0⟩
      (tables.modify place change) (log ++ [⟨table.name, position, entry⟩]) := by
  let key := entry.layout.identity table.name entry.key
  have hfiled : filedUnder (log ++ [⟨table.name, position, entry⟩]) key =
      [⟨table.name, position, entry⟩] := by
    have hkey : Filing.key ⟨table.name, position, entry⟩ = key := rfl
    rw [filedUnder_append, if_pos hkey, hlog, List.nil_append]
  obtain ⟨after, hafter, hname, hnew, -⟩ := h.getElem?_place htable
  refine ⟨rfl, by rw [hfiled]; rfl, by rw [hfiled]; rfl, after, hafter, ?_⟩
  intro filing hfiling hkey
  have hmem : filing ∈ filedUnder (log ++ [⟨table.name, position, entry⟩]) key := by
    simpa only [filedUnder, List.mem_filter, decide_eq_true_eq] using ⟨hfiling, hkey⟩
  rw [hfiled, List.mem_singleton] at hmem
  subst hmem
  exact ⟨hname.symm, hlayout ▸ hnew⟩

end AddsLayout

section Filed

variable {batch : Batch} {log : List Filing}

theorem Slot.Holds.exists_filing {slot : Slot} {tables : List Table}
    (h : slot.Holds tables log) : ∃ filing ∈ log, filing.key = slot.key := by
  obtain ⟨filing, hfiling, -⟩ := Option.map_eq_some_iff.mp h.payload
  have hmem := List.mem_of_getLast? hfiling
  simp only [filedUnder, List.mem_filter, decide_eq_true_eq] at hmem
  exact ⟨filing, hmem⟩

/-- A slot that has the key of a table belongs to the table. -/
theorem Filed.table_of_key (h : Filed batch log) {slot : Slot} (hslot : slot ∈ batch.slots)
    {place : Nat} {table : Table} (htable : batch.tables[place]? = some table)
    {layout : KeyLayout} {item : AttributeMap}
    (hkey : slot.key = layout.identity table.name item) : slot.table = place := by
  obtain ⟨filing, hfiling, hfilingKey⟩ := (h.holds slot hslot).exists_filing
  obtain ⟨other, hother, hfiled⟩ := (h.holds slot hslot).table
  obtain ⟨hname, -⟩ := hfiled filing hfiling hfilingKey
  have hsame : filing.table = table.name :=
    (KeyLayout.identity_inj.mp (hfilingKey.trans hkey)).1
  exact eq_of_map_eq h.names_nodup hother htable (hname.symm.trans hsame)

theorem Filed.covers_append (h : Filed batch log) {slots : List Slot} {filing : Filing}
    (hkeys : ∀ slot ∈ batch.slots, ∃ after ∈ slots, after.key = slot.key)
    (hnew : ∃ after ∈ slots, after.key = filing.key) :
    ∀ other ∈ log ++ [filing], ∃ after ∈ slots, after.key = other.key := by
  intro other hother
  rcases List.mem_append.mp hother with hmem | hmem
  · obtain ⟨slot, hslot, hkey⟩ := h.covers other hmem
    obtain ⟨after, hafter, hsame⟩ := hkeys slot hslot
    exact ⟨after, hafter, hsame.trans hkey⟩
  · exact List.mem_singleton.mp hmem ▸ hnew

theorem Filed.layouts_append (h : Filed batch log) {place : Nat} {table : Table}
    (htable : batch.tables[place]? = some table) {position : Nat} {entry : Entry}
    {change : Table → Table} (hchange : AddsLayout entry.layout change) :
    ∀ after ∈ batch.tables.modify place change, ∀ layout ∈ after.layouts,
      ∃ filing ∈ log ++ [⟨table.name, position, entry⟩],
        filing.table = after.name ∧ filing.entry.layout = layout := by
  intro after hafter layout hlayout
  obtain ⟨before, hbefore, hname, hlayouts⟩ := hchange.of_mem hafter
  rcases hlayouts layout hlayout with hold | ⟨rfl, hplace⟩
  · obtain ⟨filing, hfiling, htable, hlayout⟩ := h.layouts before hbefore layout hold
    exact ⟨filing, List.mem_append_left _ hfiling, htable.trans hname.symm, hlayout⟩
  · obtain rfl : before = table := Option.some.inj (hplace.symm.trans htable)
    exact ⟨_, List.mem_append_right _ (List.mem_singleton_self _), hname.symm, rfl⟩

theorem Filed.tables_mem_append (h : Filed batch log) {place : Nat} {table : Table}
    (htable : batch.tables[place]? = some table) {position : Nat} {entry : Entry}
    {change : Table → Table} (hchange : AddsLayout entry.layout change) :
    ∀ filing ∈ log ++ [⟨table.name, position, entry⟩],
      ∃ after ∈ batch.tables.modify place change, after.name = filing.table := by
  have hnames : ∀ before ∈ batch.tables,
      ∃ after ∈ batch.tables.modify place change, after.name = before.name := by
    intro before hbefore
    have : before.name ∈ (batch.tables.modify place change).map Table.name := by
      rw [hchange.map_name]
      exact List.mem_map_of_mem hbefore
    exact List.mem_map.mp this
  intro filing hfiling
  rcases List.mem_append.mp hfiling with hmem | hmem
  · obtain ⟨before, hbefore, hname⟩ := h.tables_mem filing hmem
    obtain ⟨after, hafter, hsame⟩ := hnames before hbefore
    exact ⟨after, hafter, hsame.trans hname⟩
  · obtain rfl := List.mem_singleton.mp hmem
    exact hnames table (List.mem_of_getElem? htable)

/-- Filing an item whose key has a slot. -/
theorem Filed.addItem_some (h : Filed batch log) {place : Nat} {table : Table}
    (htable : batch.tables[place]? = some table) (position : Nat) (entry : Entry) {id : Nat}
    (hid : batch.findPending? (entry.layout.identity table.name entry.key) = some id) :
    Filed (batch.addItem place table.name position entry)
      (log ++ [⟨table.name, position, entry⟩]) := by
  have hchange := addsLayout_addLayout entry.layout
  obtain ⟨-, slot, hslot, hkey⟩ := mem_of_findPending? hid
  have hplace := h.table_of_key (List.mem_of_getElem? hslot) htable hkey
  have hkeys : (batch.slots.modify id (Slot.extend position entry.payload)).map Slot.key =
      batch.slots.map Slot.key :=
    map_modify_of_eq (f := Slot.extend position entry.payload) (fun _ => rfl) batch.slots id
  have hbatch : batch.addItem place table.name position entry =
      { batch with
        tables := batch.tables.modify place (·.addLayout entry.layout)
        slots := batch.slots.modify id (Slot.extend position entry.payload) } := by
    simp only [Batch.addItem, hid]
    rfl
  rw [hbatch]
  refine ⟨?_, ?_, h.retry_eq, ?_, ?_, ?_, ?_, ?_, ?_⟩
  · simpa only [hchange.map_name] using h.names_nodup
  · simpa using h.pending_eq
  · simp only [List.flatMap_def, map_modify_of_eq fun table => addLayout_fresh table entry.layout]
    exact h.fresh_perm
  · exact hkeys ▸ h.keys_nodup
  · intro after hafter
    obtain ⟨j, hj⟩ := List.mem_iff_getElem?.mp hafter
    rw [List.getElem?_modify] at hj
    obtain ⟨before, hbefore, rfl⟩ := Option.map_eq_some_iff.mp hj
    have hholds := h.holds before (List.mem_of_getElem? hbefore)
    split_ifs with hij
    · subst hij
      obtain rfl : before = slot := Option.some.inj (hbefore.symm.trans hslot)
      exact hholds.extend hchange htable rfl hplace hkey
    · refine hholds.append hchange fun hsame => hij ?_
      exact eq_of_map_eq h.keys_nodup hslot hbefore (hkey.trans hsame)
  · refine h.covers_append (fun before hbefore => ?_) ?_
    · have hmem := List.mem_map_of_mem (f := Slot.key) hbefore
      rw [← hkeys] at hmem
      exact List.mem_map.mp hmem
    · refine ⟨slot.extend position entry.payload, List.mem_of_getElem? (i := id) ?_, hkey⟩
      simp [hslot]
  · exact h.layouts_append htable hchange
  · exact h.tables_mem_append htable hchange

theorem flatMap_fresh_addFresh {tables : List Table} {place : Nat} (hplace : place < tables.length)
    (layout : KeyLayout) (id : Nat) :
    ((tables.modify place ((·.addFresh id) ∘ (·.addLayout layout))).flatMap Table.fresh).Perm
      (tables.flatMap Table.fresh ++ [id]) := by
  induction tables generalizing place with
  | nil => simp at hplace
  | cons table tables ih =>
    cases place with
    | zero =>
      simp only [List.modify_zero_cons, List.flatMap_cons, Function.comp_apply, Table.addFresh,
        addLayout_fresh, List.append_assoc]
      exact (List.perm_append_comm).append_left _
    | succ place =>
      simp only [List.modify_succ_cons, List.flatMap_cons, List.append_assoc]
      exact (ih (by simpa using hplace)).append_left _

/-- Filing an item whose key has no slot yet. -/
theorem Filed.addItem_none (h : Filed batch log) {place : Nat} {table : Table}
    (htable : batch.tables[place]? = some table) (position : Nat) (entry : Entry)
    (hid : batch.findPending? (entry.layout.identity table.name entry.key) = none) :
    Filed (batch.addItem place table.name position entry)
      (log ++ [⟨table.name, position, entry⟩]) := by
  have hchange := addsLayout_addFresh entry.layout batch.slots.length
  have hfresh : ∀ slot ∈ batch.slots, slot.key ≠ entry.layout.identity table.name entry.key := by
    intro slot hslot
    obtain ⟨id, hget⟩ := List.mem_iff_getElem?.mp hslot
    have hlt := (List.getElem?_eq_some_iff.mp hget).1
    exact findPending?_eq_none hid (by simpa [h.pending_eq] using hlt) hget
  have hlog : filedUnder log (entry.layout.identity table.name entry.key) = [] := by
    refine filedUnder_eq_nil fun filing hfiling hkey => ?_
    obtain ⟨slot, hslot, hsame⟩ := h.covers filing hfiling
    exact hfresh slot hslot (hsame.trans hkey)
  let slot : Slot :=
    ⟨place, [position], entry.layout.identity table.name entry.key, entry.payload, 0⟩
  have hbatch : batch.addItem place table.name position entry =
      { batch with
        tables := batch.tables.modify place
          ((·.addFresh batch.slots.length) ∘ (·.addLayout entry.layout))
        slots := batch.slots ++ [slot]
        pending := batch.pending ++ [batch.slots.length] } := by
    simp only [Batch.addItem, hid, List.modify_modify_eq, slot]
  rw [hbatch]
  refine ⟨?_, ?_, h.retry_eq, ?_, ?_, ?_, ?_, ?_, ?_⟩
  · simpa only [hchange.map_name] using h.names_nodup
  · simp [h.pending_eq, List.range_succ]
  · have hplace := (List.getElem?_eq_some_iff.mp htable).1
    exact (flatMap_fresh_addFresh hplace entry.layout _).trans (h.fresh_perm.append_right _)
  · rw [List.map_append, List.map_singleton]
    refine h.keys_nodup.append (List.nodup_singleton _) ?_
    simpa [slot] using hfresh
  · intro after hafter
    rcases List.mem_append.mp hafter with hmem | hmem
    · exact (h.holds after hmem).append hchange fun hsame => hfresh after hmem hsame.symm
    · obtain rfl := List.mem_singleton.mp hmem
      exact .first hchange htable rfl hlog
  · refine h.covers_append (fun before hbefore => ?_) ?_
    · exact ⟨before, List.mem_append_left _ hbefore, rfl⟩
    · exact ⟨slot, List.mem_append_right _ (List.mem_singleton_self _), rfl⟩
  · exact h.layouts_append htable hchange
  · exact h.tables_mem_append htable hchange

/-- Filing one more item keeps the slots in step with what was filed. -/
theorem Filed.addItem (h : Filed batch log) {place : Nat} {table : Table}
    (htable : batch.tables[place]? = some table) (position : Nat) (entry : Entry) :
    Filed (batch.addItem place table.name position entry)
      (log ++ [⟨table.name, position, entry⟩]) := by
  cases hid : batch.findPending? (entry.layout.identity table.name entry.key) with
  | some id => exact h.addItem_some htable position entry hid
  | none => exact h.addItem_none htable position entry hid

end Filed

end TableClient.Batch
