import Mathlib
import TableClient.Key.Resolve

/-!
# What is left of a value without its empty parts

Dropping the empty strings and NULLs of an item goes into maps but not into lists. It leaves a value
as it is exactly if there is nothing to drop in it, and it never makes a value count as set that did
not before.

Results:
* `prune_eq_self_iff`: the values that stay as they are.
* `isUnset_prune`: a value that is not set is not set without its empty parts either.
* `get?_withoutEmpty_eq_some_self_iff`: the attributes of an item that stay as they are.
-/

namespace TableClient

namespace Attribute

mutual

/-- No empty string or NULL stands in the maps that a value is built of. -/
def Full : Attribute → Prop
  | .map fields => FullFields fields
  | _ => True

/-- No entry is empty, and every value is full. -/
def FullFields : List (String × Attribute) → Prop
  | [] => True
  | (_, value) :: fields => value.isEmpty = false ∧ Full value ∧ FullFields fields

end

theorem length_pruneFields_le (fields : List (String × Attribute)) :
    (pruneFields fields).length ≤ fields.length := by
  induction fields with
  | nil => exact Nat.le_refl 0
  | cons field fields ih =>
    obtain ⟨name, value⟩ := field
    rw [pruneFields]
    split_ifs <;> simp only [List.length_cons] <;> omega

mutual

/-- A value stays as it is if there is nothing to drop in it. -/
theorem prune_eq_self_iff : ∀ value : Attribute, value.prune = value ↔ value.Full
  | .map fields => by rw [prune, Full, map.injEq, pruneFields_eq_self_iff fields]
  | .string _ | .number _ | .binary _ | .bool _ | .null _ | .list _ | .stringSet _ | .numberSet _
  | .binarySet _ => by simp [prune, Full]

theorem pruneFields_eq_self_iff :
    ∀ fields : List (String × Attribute), pruneFields fields = fields ↔ FullFields fields
  | [] => by simp [pruneFields, FullFields]
  | (name, value) :: fields => by
    have hlength := length_pruneFields_le fields
    rw [pruneFields, FullFields]
    split_ifs with hempty
    · refine ⟨fun h => ?_, fun h => absurd hempty (by simp [h.1])⟩
      have := congrArg List.length h
      rw [List.length_cons] at this
      omega
    · rw [List.cons.injEq, Prod.mk.injEq, prune_eq_self_iff value, pruneFields_eq_self_iff fields]
      simp [hempty]

end

/-- A value that is not set is not set without its empty parts either. -/
theorem isUnset_prune {value : Attribute} (h : value.isUnset = true) :
    value.prune.isUnset = true := by
  cases value with
  | map fields =>
    obtain rfl : fields = [] := List.isEmpty_iff.mp h
    rfl
  | _ => exact h

/-- A value that the store refuses as empty is not set. -/
theorem isUnset_of_isEmpty {value : Attribute} (h : value.isEmpty = true) :
    value.isUnset = true := by
  cases value with
  | null => rfl
  | string => exact h
  | _ => cases h

/-- Dropping the empty parts of an item takes nothing from a value: neither the value itself nor a
    part of it. -/
def Kept (value : Attribute) : Prop := value.isEmpty = false ∧ value.Full

end Attribute

namespace AttributeMap

variable {item : AttributeMap}

/-- The attributes that stay as they are. -/
theorem get?_withoutEmpty_eq_some_self_iff (hitem : Dict.Sorted item) {name : String}
    {value : Attribute} (h : Dict.get? item name = some value) :
    Dict.get? item.withoutEmpty name = some value ↔ value.Kept := by
  rw [get?_withoutEmpty item name hitem, h, Attribute.Kept, ← Attribute.prune_eq_self_iff]
  cases hempty : value.isEmpty <;> simp [Option.filter, hempty]

/-- An attribute that is set without the empty parts of an item is set in the item. -/
theorem isSome_setValue?_of_withoutEmpty (hitem : Dict.Sorted item) {name : String}
    (h : (item.withoutEmpty.setValue? name).isSome) : (item.setValue? name).isSome := by
  obtain ⟨left, hleft⟩ := Option.isSome_iff_exists.mp h
  obtain ⟨hget, hset⟩ := Option.filter_eq_some_iff.mp hleft
  rw [get?_withoutEmpty item name hitem, Option.map_eq_some_iff] at hget
  obtain ⟨value, hvalue, rfl⟩ := hget
  have hunset : value.isUnset = false := by
    by_contra hunset
    rw [Attribute.isUnset_prune (by simpa using hunset)] at hset
    cases hset
  rw [setValue?, (Option.filter_eq_some_iff.mp hvalue).1]
  simp [Option.filter, hunset]

end AttributeMap

end TableClient
