/-!
# Lists of distinct names

Names kept in the order of their first occurrence.

Results:
* `mem_addNames`: adding names keeps those that are there and adds the others.
* `prefix_addNames`: the names that were there stay in front, at their places.
* `nodup_addNames`: no name is added twice.
-/

namespace TableClient

/-- Adds the names that are not there yet behind those that are, in order. -/
def addNames (there : List String) : List String → List String
  | [] => there
  | name :: names => addNames (if there.contains name then there else there ++ [name]) names

/-- Adding names keeps those that are there and adds the others. -/
theorem mem_addNames {there names : List String} {name : String} :
    name ∈ addNames there names ↔ name ∈ there ∨ name ∈ names := by
  induction names generalizing there with
  | nil => simp [addNames]
  | cons first names ih =>
    rw [addNames, ih]
    by_cases h : first ∈ there
    · simp only [List.contains_iff_mem, h, ↓reduceIte, List.mem_cons]
      constructor
      · rintro (h | h) <;> simp [h]
      · rintro (h | rfl | h) <;> simp_all
    · simp [h, or_assoc]

/-- The names that were there stay in front, at their places. -/
theorem prefix_addNames (there names : List String) : there <+: addNames there names := by
  induction names generalizing there with
  | nil => exact List.prefix_refl there
  | cons first names ih =>
    rw [addNames]
    split
    · exact ih there
    · exact (List.prefix_append there [first]).trans (ih _)

/-- No name is added twice. -/
theorem nodup_addNames {there : List String} (h : there.Nodup) (names : List String) :
    (addNames there names).Nodup := by
  induction names generalizing there with
  | nil => exact h
  | cons first names ih =>
    rw [addNames]
    split
    · exact ih h
    · rename_i hnew
      refine ih (List.nodup_append.2 ⟨h, by simp, ?_⟩)
      rintro a ha b hb rfl
      rw [List.mem_singleton.1 hb] at ha
      exact hnew (by simpa using ha)

end TableClient
