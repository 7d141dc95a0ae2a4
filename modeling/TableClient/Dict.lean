/-!
# Name-keyed maps

A finite map from names is the list of its entries in strictly increasing order of the names,
so that equal maps are equal lists and a map may occur inside a recursive type. Names are
ordered by code points, which is also the order of their UTF-8 bytes.

Results:
* `get?_insert`: an insertion is seen at its own name and nowhere else.
* `sorted_insert`, `sorted_insertAll`: insertions keep the entries in order.
* `mem_keys_insert`: an insertion adds its name and removes none.
-/

namespace TableClient

/-- A finite map from names, as the list of its entries. -/
abbrev Dict (α : Type) := List (String × α)

namespace Dict

variable {α β : Type}

/-- The names bound in `d`, in order. -/
def keys (d : Dict α) : List String := d.map Prod.fst

/-- The value bound to `name`. -/
def get? (d : Dict α) (name : String) : Option α := List.lookup name d

/-- Whether `name` is bound. -/
def contains (d : Dict α) (name : String) : Bool := (d.get? name).isSome

/-- Binds `name` to `value` at its place in the order, over any earlier binding. -/
def insert : Dict α → String → α → Dict α
  | [], name, value => [(name, value)]
  | (k, v) :: rest, name, value =>
    if name < k then (name, value) :: (k, v) :: rest
    else if name = k then (name, value) :: rest
    else (k, v) :: insert rest name value

/-- Inserts entries from left to right, so that of two with one name the last stays. -/
def insertAll (d : Dict α) (entries : List (String × α)) : Dict α :=
  entries.foldl (fun d entry => Dict.insert d entry.1 entry.2) d

/-- The map of a list of entries, in any order. -/
def ofList (entries : List (String × α)) : Dict α := insertAll [] entries

/-- The form that every map built by insertion has: names strictly increase. -/
def Sorted (d : Dict α) : Prop := List.Pairwise (fun x y => x.1 < y.1) d

/-! ## Lookup -/

@[simp] theorem get?_nil (name : String) : get? ([] : Dict α) name = none := rfl

theorem get?_cons (k : String) (v : α) (d : Dict α) (name : String) :
    get? ((k, v) :: d) name = if name = k then some v else get? d name := by
  by_cases h : name = k
  · subst h; simp [get?]
  · have : (name == k) = false := by simpa using h
    simp [get?, List.lookup_cons, this, h]

/-- An insertion is seen at its own name and nowhere else. -/
theorem get?_insert (d : Dict α) (name : String) (value : α) (other : String) :
    get? (insert d name value) other = if other = name then some value else get? d other := by
  induction d with
  | nil => simp [insert, get?_cons]
  | cons entry rest ih =>
    obtain ⟨k, v⟩ := entry
    simp only [insert]
    by_cases hlt : name < k
    · simp [hlt, get?_cons]
    · by_cases heq : name = k
      · subst heq
        simp only [hlt, ↓reduceIte, get?_cons]
        split <;> rfl
      · simp only [hlt, heq, ↓reduceIte, get?_cons, ih]
        by_cases ho : other = k
        · simp [ho, Ne.symm heq]
        · simp [ho]

/-! ## Order -/

@[simp] theorem keys_nil : keys ([] : Dict α) = [] := rfl

@[simp] theorem keys_cons (k : String) (v : α) (d : Dict α) :
    keys ((k, v) :: d) = k :: keys d := rfl

theorem mem_keys_of_get? {d : Dict α} {name : String} {value : α} (h : get? d name = some value) :
    name ∈ keys d := by
  induction d with
  | nil => simp at h
  | cons entry rest ih =>
    obtain ⟨k, v⟩ := entry
    rw [get?_cons] at h
    split at h
    · rename_i hk; simp [hk]
    · exact List.mem_cons_of_mem _ (ih h)

/-- An insertion adds its name and removes none. -/
theorem mem_keys_insert (d : Dict α) (name : String) (value : α) (other : String) :
    other ∈ keys (insert d name value) ↔ other = name ∨ other ∈ keys d := by
  induction d with
  | nil => simp [insert]
  | cons entry rest ih =>
    obtain ⟨k, v⟩ := entry
    simp only [insert]
    by_cases hlt : name < k
    · simp [hlt]
    · by_cases heq : name = k
      · subst heq; simp only [hlt, ↓reduceIte, keys_cons, List.mem_cons, or_self_left]
      · simp only [hlt, heq, ↓reduceIte, keys_cons, List.mem_cons, ih]
        constructor
        · rintro (h | h | h) <;> simp [h]
        · rintro (h | h | h) <;> simp [h]

/-- Of two names one comes first, unless they are the same. -/
theorem lt_of_not_lt_of_ne {name other : String} (h : ¬ name < other) (hne : name ≠ other) :
    other < name := by
  by_cases hlt : other < name
  · exact hlt
  · exact absurd (String.le_antisymm (String.not_lt.1 hlt) (String.not_lt.1 h)) hne

theorem sorted_nil : Sorted ([] : Dict α) := List.Pairwise.nil

theorem sorted_cons {k : String} {v : α} {d : Dict α} :
    Sorted ((k, v) :: d) ↔ (∀ other ∈ keys d, k < other) ∧ Sorted d := by
  simp only [Sorted, List.pairwise_cons, keys, List.mem_map]
  constructor
  · rintro ⟨h, hd⟩
    refine ⟨?_, hd⟩
    rintro other ⟨entry, hm, rfl⟩
    exact h entry hm
  · rintro ⟨h, hd⟩
    exact ⟨fun entry hm => h _ ⟨entry, hm, rfl⟩, hd⟩

/-- Insertion keeps the names in strictly increasing order. -/
theorem sorted_insert {d : Dict α} (hd : Sorted d) (name : String) (value : α) :
    Sorted (insert d name value) := by
  induction d with
  | nil => simp [insert, sorted_cons, sorted_nil]
  | cons entry rest ih =>
    obtain ⟨k, v⟩ := entry
    obtain ⟨hk, hrest⟩ := sorted_cons.1 hd
    simp only [insert]
    by_cases hlt : name < k
    · simp only [hlt, ↓reduceIte]
      refine sorted_cons.2 ⟨?_, hd⟩
      intro other hm
      rcases List.mem_cons.1 hm with rfl | hm
      · exact hlt
      · exact String.lt_trans hlt (hk other hm)
    · by_cases heq : name = k
      · subst heq
        simp only [hlt, ↓reduceIte]
        exact sorted_cons.2 ⟨hk, hrest⟩
      · simp only [hlt, heq, ↓reduceIte]
        refine sorted_cons.2 ⟨?_, ih hrest⟩
        intro other hm
        rcases (mem_keys_insert rest name value other).1 hm with rfl | hm
        · exact lt_of_not_lt_of_ne hlt heq
        · exact hk other hm

theorem sorted_insertAll {d : Dict α} (hd : Sorted d) (entries : List (String × α)) :
    Sorted (insertAll d entries) := by
  induction entries generalizing d with
  | nil => exact hd
  | cons entry rest ih => exact ih (sorted_insert hd entry.1 entry.2)

theorem sorted_ofList (entries : List (String × α)) : Sorted (ofList entries) :=
  sorted_insertAll sorted_nil entries

end Dict

end TableClient
