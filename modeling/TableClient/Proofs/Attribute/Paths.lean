import Mathlib
import TableClient.Proofs.Attribute.Form
import TableClient.Proofs.Attribute.Prune

/-!
# What a path of names leads to without the empty values

A path of names leads from map to map. Dropping the empty values of an item takes away what a path
leads to exactly if this is NULL or the empty string. Nothing else is touched: a map is left with
what it holds that is not empty, maybe with nothing, and every other value stays as it is, a list
with the empty values in it.

Results:
* `at?_prune`: what a path leads to once the empty values are dropped.
* `prune_prune`: once they are dropped, there is nothing more to drop.
* `withoutEmpty_drops_exactly`: both for an item.
-/

namespace TableClient

namespace Attribute

/-- What a path of names leads to from a value, each name taken in the map that is reached. -/
def at? : Attribute → List String → Option Attribute
  | value, [] => some value
  | .map fields, name :: path => (Dict.get? fields name).bind fun value => value.at? path
  | _, _ :: _ => none

/-- NULL and the empty string are the empty values. -/
theorem isEmpty_eq_false_iff {value : Attribute} :
    value.isEmpty = false ↔ (∀ flag, value ≠ .null flag) ∧ value ≠ .string "" := by
  cases value <;> simp [isEmpty]

/-! ## One step of a path -/

theorem ordered_of_get? {fields : List (String × Attribute)} (h : OrderedFields fields)
    {name : String} {value : Attribute} (hvalue : Dict.get? fields name = some value) :
    value.Ordered := by
  induction fields with
  | nil => cases hvalue
  | cons field fields ih =>
    obtain ⟨k, first⟩ := field
    rw [OrderedFields] at h
    rw [Dict.get?_cons] at hvalue
    split_ifs at hvalue
    · exact Option.some.inj hvalue ▸ h.1
    · exact ih h.2 hvalue

/-- No path leads from an empty value to one that is not. -/
theorem filter_at?_of_isEmpty {value : Attribute} (h : value.isEmpty = true) (path : List String) :
    ((value.at? path).filter fun found => !found.isEmpty) = none := by
  cases path with
  | nil => simp [at?, h]
  | cons name path =>
    cases value with
    | map => cases h
    | _ => rfl

/-! ## Paths -/

/-- What a path leads to once the empty values are dropped: what it led to, if this is not empty,
    without the empty values of its own. -/
theorem at?_prune {value : Attribute} (hvalue : value.Ordered) (hfull : value.isEmpty = false)
    (path : List String) :
    value.prune.at? path = ((value.at? path).filter fun found => !found.isEmpty).map prune := by
  induction path generalizing value with
  | nil => simp [at?, hfull]
  | cons name path ih =>
    cases value with
    | map fields =>
      rw [Ordered] at hvalue
      have hstep := AttributeMap.get?_withoutEmpty fields name hvalue.1
      unfold AttributeMap.withoutEmpty at hstep
      rw [prune, at?, at?, hstep]
      cases hget : Dict.get? fields name with
      | none => rfl
      | some found =>
        rw [Option.bind_some]
        cases hempty : found.isEmpty with
        | true =>
          rw [filter_at?_of_isEmpty hempty]
          simp [Option.filter, hempty]
        | false =>
          rw [← ih (ordered_of_get? hvalue.2 hget) hempty]
          simp [Option.filter, hempty]
    | _ => rfl

/-! ## Dropping twice -/

theorem isEmpty_prune (value : Attribute) : value.prune.isEmpty = value.isEmpty := by
  cases value <;> rfl

mutual

theorem full_prune : ∀ value : Attribute, value.prune.Full
  | .map fields => fullFields_pruneFields fields
  | .string _ | .number _ | .binary _ | .bool _ | .null _ | .list _ | .stringSet _ | .numberSet _
  | .binarySet _ => trivial

theorem fullFields_pruneFields :
    ∀ fields : List (String × Attribute), FullFields (pruneFields fields)
  | [] => trivial
  | (name, value) :: fields => by
    rw [pruneFields]
    split_ifs with hempty
    · exact fullFields_pruneFields fields
    · rw [FullFields, isEmpty_prune]
      exact ⟨by simpa using hempty, full_prune value, fullFields_pruneFields fields⟩

end

/-- Once the empty values are dropped, there is nothing more to drop. -/
theorem prune_prune (value : Attribute) : value.prune.prune = value.prune :=
  (prune_eq_self_iff _).mpr (full_prune value)

end Attribute

namespace AttributeMap

/-- What a path of names leads to in an item. -/
def at? (item : AttributeMap) (path : List String) : Option Attribute :=
  (Attribute.map item).at? path

/-- Dropping the empty values of an item takes away what a path leads to exactly if this is NULL or
    the empty string. A map stays a map, with what it holds that is not empty; every other value
    stays as it is. There is nothing more to drop then. -/
theorem withoutEmpty_drops_exactly {item : AttributeMap} (h : (Attribute.map item).Ordered) :
    (∀ path ≠ [], (∃ left, item.withoutEmpty.at? path = some left) ↔
      ∃ value, item.at? path = some value ∧ (∀ flag, value ≠ .null flag) ∧ value ≠ .string "") ∧
    (∀ path value left, item.at? path = some value → item.withoutEmpty.at? path = some left →
      (∀ fields, value ≠ .map fields) → left = value) ∧
    (∀ path fields, item.at? path = some (.map fields) →
      item.withoutEmpty.at? path = some (.map (withoutEmpty fields))) ∧
    item.withoutEmpty.withoutEmpty = item.withoutEmpty := by
  have hpath : ∀ path, item.withoutEmpty.at? path =
      ((item.at? path).filter fun found => !found.isEmpty).map Attribute.prune :=
    Attribute.at?_prune h rfl
  refine ⟨?_, ?_, ?_, ?_⟩
  · intro path _
    simp [hpath, Option.filter_eq_some_iff, Attribute.isEmpty_eq_false_iff]
  · intro path value left hvalue hleft hmap
    rw [hpath, hvalue] at hleft
    obtain ⟨found, hfound, rfl⟩ := Option.map_eq_some_iff.mp hleft
    obtain ⟨hsame, -⟩ := Option.filter_eq_some_iff.mp hfound
    obtain rfl := Option.some.inj hsame
    cases value with
    | map fields => exact absurd rfl (hmap fields)
    | _ => rfl
  · intro path fields hfields
    rw [hpath, hfields]
    rfl
  · exact Attribute.map.inj (Attribute.prune_prune (.map item))

/-- A film with blanks at two depths, a list of blanks and a map of nothing else. -/
def filmWithBlanks : AttributeMap :=
  [("blank", .string ""),
   ("id", .string "a"),
   ("info", .map [("cast", .map [("lead", .null true)]), ("plot", .string ""),
     ("year", .number "0")]),
   ("list", .list [.string "", .null true]),
   ("none", .null true)]

theorem filmWithBlanks_drops_exactly : (Attribute.map filmWithBlanks).Ordered ∧
    (¬ ∃ left, filmWithBlanks.withoutEmpty.at? ["info", "plot"] = some left) ∧
    (∃ left, filmWithBlanks.withoutEmpty.at? ["info", "year"] = some left ∧ left = .number "0") ∧
    (∃ left, filmWithBlanks.withoutEmpty.at? ["list"] = some left ∧
      left = .list [.string "", .null true]) ∧
    filmWithBlanks.withoutEmpty.at? ["info", "cast"] = some (.map []) ∧
    filmWithBlanks.withoutEmpty.withoutEmpty = filmWithBlanks.withoutEmpty := by
  have hordered : (Attribute.map filmWithBlanks).Ordered := by
    simp only [filmWithBlanks, Attribute.Ordered, Attribute.OrderedFields, Attribute.OrderedItems,
      Dict.Sorted]
    decide
  obtain ⟨hleft, hsame, hmap, htwice⟩ := withoutEmpty_drops_exactly hordered
  obtain ⟨year, hyear⟩ := (hleft ["info", "year"] (by simp)).mpr ⟨.number "0", rfl, by simp, by simp⟩
  obtain ⟨list, hlist⟩ := (hleft ["list"] (by simp)).mpr
    ⟨.list [.string "", .null true], rfl, by simp, by simp⟩
  refine ⟨hordered, ?_, ⟨year, hyear, hsame _ _ _ rfl hyear (by simp)⟩,
    ⟨list, hlist, hsame _ _ _ rfl hlist (by simp)⟩, hmap ["info", "cast"] _ rfl, htwice⟩
  rw [hleft ["info", "plot"] (by simp)]
  rintro ⟨value, hvalue, -, hblank⟩
  obtain rfl : Attribute.string "" = value := Option.some.inj hvalue
  exact hblank rfl

end AttributeMap

end TableClient
