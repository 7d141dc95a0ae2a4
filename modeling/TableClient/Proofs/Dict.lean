import Mathlib
import TableClient.Dict

/-!
# Maps and their look-ups

A map whose names increase is known by its look-ups. A map of lists holds one entry for each item
of each list; adding an item behind the list of its name adds one entry.

Results:
* `mem_keys_insertAll`: insertions add their names and remove none.
* `get?_insertAll_eq_some_iff`: maps that agree on the names they share are united.
* `Sorted.ext`: two maps with the same look-ups are the same map.
* `Sorted.find?_fst`: the first entry that passes a test has the least name of those that do.
* `ofList_of_sorted`: a map is the map of its entries.
* `entries_insert_perm`: an item that is added is one more entry.
* `insert_map`: an insertion and a function of the values may change places.
-/

namespace TableClient.Dict

variable {α β : Type}

/-! ## Maps -/

theorem mem_of_get? {d : Dict α} {name : String} {value : α} (h : get? d name = some value) :
    (name, value) ∈ d := by
  induction d with
  | nil => simp at h
  | cons entry rest ih =>
    obtain ⟨k, v⟩ := entry
    rw [get?_cons] at h
    split_ifs at h with hname
    · obtain rfl := Option.some.inj h
      exact hname ▸ List.mem_cons_self
    · exact List.mem_cons_of_mem _ (ih h)

theorem get?_of_mem {d : Dict α} (hd : Sorted d) {name : String} {value : α}
    (h : (name, value) ∈ d) : get? d name = some value := by
  induction d with
  | nil => exact absurd h List.not_mem_nil
  | cons entry rest ih =>
    obtain ⟨k, v⟩ := entry
    obtain ⟨hk, hrest⟩ := sorted_cons.mp hd
    rcases List.mem_cons.mp h with heq | hmem
    · cases heq
      rw [get?_cons, if_pos rfl]
    · have hlt := hk name (List.mem_map_of_mem (f := Prod.fst) hmem)
      have hne : name ≠ k := fun heq => String.lt_irrefl k (heq ▸ hlt)
      rw [get?_cons, if_neg hne, ih hrest hmem]

/-- The names of a map are those that can be looked up. -/
theorem mem_keys_iff {d : Dict α} {name : String} :
    name ∈ keys d ↔ ∃ value, get? d name = some value := by
  refine ⟨fun h => ?_, fun ⟨value, hvalue⟩ => mem_keys_of_get? hvalue⟩
  induction d with
  | nil => exact absurd h List.not_mem_nil
  | cons entry rest ih =>
    obtain ⟨k, v⟩ := entry
    rw [get?_cons]
    split_ifs with hname
    · exact ⟨v, rfl⟩
    · exact ih (List.mem_of_ne_of_mem hname h)

/-- What insertions leave in a map was there or was inserted. -/
theorem mem_of_mem_insertAll {d : Dict α} {entries : List (String × α)} {entry : String × α}
    (h : entry ∈ insertAll d entries) : entry ∈ d ∨ entry ∈ entries := by
  have hinsert : ∀ {d : Dict α} {first : String × α}, entry ∈ insert d first.1 first.2 →
      entry = first ∨ entry ∈ d := by
    intro d first h
    induction d with
    | nil => simpa [insert] using h
    | cons other rest ih =>
      rw [insert] at h
      split_ifs at h
      · simpa using h
      · exact (List.mem_cons.mp h).imp id (List.mem_cons_of_mem other)
      · rcases List.mem_cons.mp h with heq | h
        · exact .inr (heq ▸ List.mem_cons_self)
        · exact (ih h).imp id (List.mem_cons_of_mem other)
  induction entries generalizing d with
  | nil => exact .inl h
  | cons first rest ih =>
    rcases ih h with h | h
    · rcases hinsert h with rfl | h
      · exact .inr List.mem_cons_self
      · exact .inl h
    · exact .inr (List.mem_cons_of_mem first h)

theorem mem_of_mem_ofList {entries : List (String × α)} {entry : String × α}
    (h : entry ∈ ofList entries) : entry ∈ entries :=
  (mem_of_mem_insertAll h).resolve_left List.not_mem_nil

/-- Insertions add their names and remove none. -/
theorem mem_keys_insertAll {d : Dict α} {entries : List (String × α)} {name : String} :
    name ∈ keys (insertAll d entries) ↔ name ∈ keys d ∨ name ∈ entries.map Prod.fst := by
  induction entries generalizing d with
  | nil => simp [insertAll]
  | cons first rest ih =>
    have hfirst : insertAll d (first :: rest) = insertAll (insert d first.1 first.2) rest := rfl
    rw [hfirst, ih, mem_keys_insert, List.map_cons, List.mem_cons]
    tauto

theorem mem_keys_ofList {entries : List (String × α)} {name : String} :
    name ∈ keys (ofList entries) ↔ name ∈ entries.map Prod.fst := by
  rw [ofList, mem_keys_insertAll, keys_nil]
  simp

theorem Sorted.nodup_keys {d : Dict α} (hd : Sorted d) : (keys d).Nodup := by
  refine List.pairwise_map.mpr (List.Pairwise.imp ?_ hd)
  intro a b hlt heq
  exact String.lt_irrefl a.1 (heq ▸ hlt)

/-- Once entries with different names are inserted, these names have the values they have in them. -/
theorem get?_insertAll {d : Dict α} {entries : List (String × α)} (h : (keys entries).Nodup)
    (name : String) : get? (insertAll d entries) name = (get? entries name).or (get? d name) := by
  induction entries generalizing d with
  | nil => rfl
  | cons entry rest ih =>
    obtain ⟨k, v⟩ := entry
    obtain ⟨hk, hrest⟩ := List.nodup_cons.mp h
    have hfirst : insertAll d ((k, v) :: rest) = insertAll (insert d k v) rest := rfl
    rw [hfirst, ih hrest, get?_insert, get?_cons]
    split_ifs with hname
    · have hmiss : get? rest name = none := by
        refine Option.eq_none_iff_forall_ne_some.mpr fun value hvalue => ?_
        exact hk (hname ▸ mem_keys_of_get? hvalue)
      rw [hmiss]
      rfl
    · rfl

theorem get?_ofList {entries : List (String × α)} (h : (keys entries).Nodup) (name : String) :
    get? (ofList entries) name = get? entries name := by
  rw [ofList, get?_insertAll h, get?_nil, Option.or_none]

/-- Maps that agree on the names they share are united. -/
theorem get?_insertAll_eq_some_iff {d entries : Dict α} (h : Sorted entries)
    (hagree : ∀ {name : String} {value other : α}, get? d name = some value →
      get? entries name = some other → value = other) {name : String} {value : α} :
    get? (insertAll d entries) name = some value ↔
      get? d name = some value ∨ get? entries name = some value := by
  rw [get?_insertAll h.nodup_keys]
  cases hentry : get? entries name with
  | none => simp
  | some other =>
    simp only [Option.some_or, Option.some.injEq]
    exact ⟨.inr, fun hvalue => hvalue.elim (fun hvalue => (hagree hvalue hentry).symm) id⟩

/-- No entry passes a test if no name has a value that does. -/
theorem Sorted.find?_fst_eq_none_iff {d : Dict α} (hd : Sorted d) {test : String × α → Bool} :
    (d.find? test).map Prod.fst = none ↔
      {other | ∃ value, get? d other = some value ∧ test (other, value) = true} = ∅ := by
  rw [Option.map_eq_none_iff, List.find?_eq_none, Set.eq_empty_iff_forall_notMem]
  constructor
  · rintro hnone name ⟨value, hvalue, htest⟩
    exact hnone _ (mem_of_get? hvalue) htest
  · rintro hempty ⟨name, value⟩ hentry htest
    exact hempty name ⟨value, get?_of_mem hd hentry, htest⟩

/-- The first entry that passes a test has the least name of those that do. -/
theorem Sorted.find?_fst {d : Dict α} (hd : Sorted d) {test : String × α → Bool} {name : String} :
    (d.find? test).map Prod.fst = some name ↔
      IsLeast {other | ∃ value, get? d other = some value ∧ test (other, value) = true} name := by
  induction d with
  | nil => simp [IsLeast]
  | cons entry rest ih =>
    obtain ⟨k, v⟩ := entry
    obtain ⟨hk, hrest⟩ := sorted_cons.mp hd
    cases htest : test (k, v) with
    | true =>
      have hleast : IsLeast
          {other | ∃ value, get? ((k, v) :: rest) other = some value ∧ test (other, value) = true}
          k := by
        refine ⟨⟨v, by rw [get?_cons, if_pos rfl], htest⟩, fun other ⟨value, hvalue, _⟩ => ?_⟩
        rcases List.mem_cons.mp (mem_keys_of_get? hvalue) with hsame | hlater
        · exact hsame.ge
        · exact (hk other hlater).le
      rw [List.find?_cons_of_pos htest, Option.map_some, Option.some.injEq]
      exact ⟨fun hname => hname ▸ hleast, fun hname => hleast.unique hname⟩
    | false =>
      -- the first entry fails the test, and its name is not that of another one
      have hset : {other | ∃ value, get? ((k, v) :: rest) other = some value ∧
          test (other, value) = true} =
          {other | ∃ value, get? rest other = some value ∧ test (other, value) = true} := by
        ext other
        refine exists_congr fun value => and_congr_left fun hother => ?_
        rw [get?_cons]
        split_ifs with hsame
        · subst hsame
          constructor
          · intro hvalue
            obtain rfl := Option.some.inj hvalue
            rw [hother] at htest
            contradiction
          · intro hvalue
            exact absurd (hk other (mem_keys_of_get? hvalue)) (String.lt_irrefl other)
        · rfl
      rw [List.find?_cons_of_neg (by simp [htest]), ih hrest, hset]

/-- Two maps with the same look-ups are the same map. -/
theorem Sorted.ext {a b : Dict α} (ha : Sorted a) (hb : Sorted b)
    (h : ∀ name, get? a name = get? b name) : a = b := by
  have hmem : ∀ entry : String × α, entry ∈ a ↔ entry ∈ b := by
    rintro ⟨name, value⟩
    constructor
    · intro hentry
      exact mem_of_get? (h name ▸ get?_of_mem ha hentry)
    · intro hentry
      exact mem_of_get? (h name ▸ get?_of_mem hb hentry)
  have hnodup : ∀ {d : Dict α}, Sorted d → d.Nodup := fun hd => List.Nodup.of_map _ hd.nodup_keys
  have hperm := (List.perm_ext_iff_of_nodup (hnodup ha) (hnodup hb)).mpr hmem
  refine hperm.eq_of_pairwise (fun x y _ _ hxy hyx => ?_) ha hb
  exact absurd (String.lt_trans hxy hyx) (String.lt_irrefl x.1)

/-- Only the names count for the order. -/
theorem sorted_congr {a : Dict α} {b : Dict β} (h : keys a = keys b) (ha : Sorted a) :
    Sorted b := by
  have hkeys : (keys a).Pairwise (· < ·) := List.pairwise_map.mpr ha
  rw [h] at hkeys
  exact List.pairwise_map.mp hkeys

/-- A name behind all others is inserted at the end. -/
theorem insert_last {d : Dict α} {name : String} {value : α}
    (h : Sorted (d ++ [(name, value)])) : insert d name value = d ++ [(name, value)] := by
  induction d with
  | nil => rfl
  | cons entry rest ih =>
    obtain ⟨k, v⟩ := entry
    rw [List.cons_append, sorted_cons] at h
    have hlt : k < name := h.1 name (by simp [keys])
    have hne : name ≠ k := fun heq => String.lt_irrefl k (heq ▸ hlt)
    have hnot : ¬ name < k := fun hgt => String.lt_irrefl k (String.lt_trans hlt hgt)
    rw [insert, if_neg hnot, if_neg hne, ih h.2, List.cons_append]

/-- Entries that are in order and behind the others are put there. -/
theorem insertAll_of_sorted {d entries : Dict α} (h : Sorted (d ++ entries)) :
    insertAll d entries = d ++ entries := by
  induction entries generalizing d with
  | nil => simp [insertAll]
  | cons entry rest ih =>
    have hassoc : d ++ entry :: rest = (d ++ [entry]) ++ rest := by simp
    have hfirst : Sorted (d ++ [entry]) := (List.pairwise_append.mp (hassoc ▸ h)).1
    change insertAll (insert d entry.1 entry.2) rest = _
    rw [insert_last hfirst, hassoc]
    exact ih (hassoc ▸ h)

/-- A map is the map of its entries. -/
theorem ofList_of_sorted {d : Dict α} (h : Sorted d) : ofList d = d := insertAll_of_sorted h

/-! ## Maps of lists -/

/-- The items of a map of lists, each with the name of its list. -/
def entries (d : Dict (List α)) : List (String × α) :=
  d.flatMap fun (name, items) => items.map fun item => (name, item)

theorem mem_entries {d : Dict (List α)} {name : String} {item : α} :
    (name, item) ∈ entries d ↔ ∃ items, (name, items) ∈ d ∧ item ∈ items := by
  simp [entries]

/-- An item that is added behind the list of its name is one more entry. -/
theorem entries_insert_perm {d : Dict (List α)} (hd : Sorted d) (name : String) (item : α) :
    (entries (insert d name ((get? d name).getD [] ++ [item]))).Perm
      (entries d ++ [(name, item)]) := by
  induction d with
  | nil => exact List.Perm.refl _
  | cons entry rest ih =>
    obtain ⟨k, items⟩ := entry
    obtain ⟨hk, hrest⟩ := sorted_cons.mp hd
    by_cases hlt : name < k
    · have hnone : get? ((k, items) :: rest) name = none := by
        refine Option.eq_none_iff_forall_ne_some.mpr fun value hvalue => ?_
        rcases List.mem_cons.mp (mem_keys_of_get? hvalue) with heq | hmem
        · obtain rfl : name = k := heq
          exact String.lt_irrefl name hlt
        · exact String.lt_irrefl name (String.lt_trans hlt (hk name hmem))
      rw [hnone, insert, if_pos hlt]
      exact List.perm_append_singleton (name, item) (entries ((k, items) :: rest)) |>.symm
    · by_cases heq : name = k
      · subst heq
        rw [get?_cons, if_pos rfl, insert, if_neg hlt, if_pos rfl]
        simp only [entries, List.flatMap_cons, Option.getD_some, List.map_append, List.map_cons,
          List.map_nil, List.append_assoc]
        exact List.perm_append_comm.append_left _
      · rw [get?_cons, if_neg heq, insert, if_neg hlt, if_neg heq]
        simp only [entries, List.flatMap_cons, List.append_assoc]
        exact (ih hrest).append_left _

/-- Items that are added one by one, each behind the list of its name, are one more entry each. -/
theorem entries_insertEach_perm {name : β → String} {item : β → α} (parts : List β)
    {d : Dict (List α)} (hd : Sorted d) :
    (entries (parts.foldl (fun d part =>
      insert d (name part) ((get? d (name part)).getD [] ++ [item part])) d)).Perm
      (entries d ++ parts.map fun part => (name part, item part)) := by
  induction parts generalizing d with
  | nil => simp
  | cons part parts ih =>
    rw [List.foldl_cons, List.map_cons]
    refine (ih (sorted_insert hd _ _)).trans ?_
    refine ((entries_insert_perm hd _ _).append_right _).trans ?_
    rw [List.append_assoc]
    rfl

/-! ## Functions of the values -/

theorem get?_map (f : α → β) (d : Dict α) (name : String) :
    get? (d.map fun entry => (entry.1, f entry.2)) name = (get? d name).map f := by
  induction d with
  | nil => rfl
  | cons entry rest ih =>
    rw [List.map_cons, get?_cons, ih, get?_cons]
    split_ifs <;> rfl

/-- An insertion and a function of the values may change places. -/
theorem insert_map (f : α → β) (d : Dict α) (name : String) (value : α) :
    insert (d.map fun entry => (entry.1, f entry.2)) name (f value) =
      (insert d name value).map fun entry => (entry.1, f entry.2) := by
  induction d with
  | nil => rfl
  | cons entry rest ih =>
    rw [List.map_cons, insert, insert]
    split_ifs
    · rfl
    · rfl
    · rw [ih, List.map_cons]

end TableClient.Dict
