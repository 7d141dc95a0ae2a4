import TableClient.Json.Form

/-!
# Attribute values

The typed values of the store. A number is its decimal text, so that no digit is lost on the way.

Results:
* equality of attributes is decidable.
* `get?_withoutEmpty`: which attribute is left under a name once the empty ones are dropped.
-/

namespace TableClient

/-- A typed attribute value. -/
inductive Attribute where
  | string (value : String)
  | number (text : String)
  | binary (bytes : List UInt8)
  | bool (value : Bool)
  | null (flag : Bool)
  | map (fields : List (String × Attribute))
  | list (items : List Attribute)
  | stringSet (items : List String)
  | numberSet (items : List String)
  | binarySet (items : List (List UInt8))

/-- The attributes of an item, by name. -/
abbrev AttributeMap := Dict Attribute

namespace Attribute

/-- The tag that names the type of a value. -/
def tag : Attribute → String
  | .string _ => "S"
  | .number _ => "N"
  | .binary _ => "B"
  | .bool _ => "BOOL"
  | .null _ => "NULL"
  | .map _ => "M"
  | .list _ => "L"
  | .stringSet _ => "SS"
  | .numberSet _ => "NS"
  | .binarySet _ => "BS"

/-- The text of a string value. -/
def asString? : Attribute → Option String
  | .string value => some value
  | _ => none

/-! ## Equality -/

mutual

/-- Whether two attributes are the same. -/
def same : Attribute → Attribute → Bool
  | .string a, .string b => a == b
  | .number a, .number b => a == b
  | .binary a, .binary b => a == b
  | .bool a, .bool b => a == b
  | .null a, .null b => a == b
  | .map a, .map b => sameFields a b
  | .list a, .list b => sameItems a b
  | .stringSet a, .stringSet b => a == b
  | .numberSet a, .numberSet b => a == b
  | .binarySet a, .binarySet b => a == b
  | _, _ => false

/-- Whether two lists of attributes are the same. -/
def sameItems : List Attribute → List Attribute → Bool
  | [], [] => true
  | x :: xs, y :: ys => same x y && sameItems xs ys
  | _, _ => false

/-- Whether two lists of named attributes are the same. -/
def sameFields : List (String × Attribute) → List (String × Attribute) → Bool
  | [], [] => true
  | (k, x) :: xs, (l, y) :: ys => k == l && same x y && sameFields xs ys
  | _, _ => false

end

mutual

theorem same_iff : ∀ a b : Attribute, same a b = true ↔ a = b
  | .string _, b | .number _, b | .binary _, b | .bool _, b | .null _, b | .stringSet _, b
  | .numberSet _, b | .binarySet _, b => by cases b <;> simp [same]
  | .map xs, b => by cases b <;> simp [same, sameFields_iff xs]
  | .list xs, b => by cases b <;> simp [same, sameItems_iff xs]

theorem sameItems_iff : ∀ a b : List Attribute, sameItems a b = true ↔ a = b
  | [], b => by cases b <;> simp [sameItems]
  | x :: xs, b => by cases b <;> simp [sameItems, same_iff x, sameItems_iff xs]

theorem sameFields_iff : ∀ a b : List (String × Attribute), sameFields a b = true ↔ a = b
  | [], b => by cases b <;> simp [sameFields]
  | (k, x) :: xs, b => by
    cases b <;> simp [sameFields, same_iff x, sameFields_iff xs, Prod.ext_iff, and_assoc]

end

instance : DecidableEq Attribute := fun a b => decidable_of_iff _ (same_iff a b)

/-! ## Empty values -/

/-- Whether a value counts as not set when a key is looked for: NULL, `false`, a number that
    rounds to zero, and every text, binary, list, map or set without content. -/
def isUnset : Attribute → Bool
  | .string value => value.isEmpty
  | .number text =>
    match Binary64.ofText? text.toList with
    | some x => x.isZero
    | none => false
  | .binary bytes => bytes.isEmpty
  | .bool value => !value
  | .null _ => true
  | .map fields => fields.isEmpty
  | .list items => items.isEmpty
  | .stringSet items => items.isEmpty
  | .numberSet items => items.isEmpty
  | .binarySet items => items.isEmpty

/-- Whether the store refuses a value as empty: NULL and the empty string. -/
def isEmpty : Attribute → Bool
  | .null _ => true
  | .string value => value.isEmpty
  | _ => false

mutual

/-- The value with the empty values dropped from the maps it is built of. -/
def prune : Attribute → Attribute
  | .map fields => .map (pruneFields fields)
  | .string value => .string value
  | .number text => .number text
  | .binary bytes => .binary bytes
  | .bool value => .bool value
  | .null flag => .null flag
  | .list items => .list items
  | .stringSet items => .stringSet items
  | .numberSet items => .numberSet items
  | .binarySet items => .binarySet items

/-- The entries that are not empty, pruned themselves. -/
def pruneFields : List (String × Attribute) → List (String × Attribute)
  | [] => []
  | (name, value) :: rest =>
    if value.isEmpty then pruneFields rest else (name, value.prune) :: pruneFields rest

end

end Attribute

/-- Drops empty strings and NULLs from an item, also inside of nested maps but not of lists. -/
def AttributeMap.withoutEmpty (item : AttributeMap) : AttributeMap := Attribute.pruneFields item

namespace AttributeMap

/-- Which attribute is left under a name once the empty ones are dropped. -/
theorem get?_withoutEmpty (item : AttributeMap) (name : String) (hd : Dict.Sorted item) :
    Dict.get? (withoutEmpty item) name =
      ((Dict.get? item name).filter fun value => !value.isEmpty).map Attribute.prune := by
  induction item with
  | nil => rfl
  | cons entry rest ih =>
    obtain ⟨k, v⟩ := entry
    obtain ⟨hk, hrest⟩ := Dict.sorted_cons.1 hd
    have ih := ih hrest
    unfold withoutEmpty at ih ⊢
    simp only [Attribute.pruneFields]
    by_cases hname : name = k
    · subst hname
      have hmiss : Dict.get? rest name = none := by
        by_cases h : Dict.get? rest name = none
        · exact h
        · exact absurd (hk name (Dict.mem_keys_of_get? (Option.ne_none_iff_exists'.1 h).choose_spec))
            (String.lt_irrefl name)
      by_cases he : v.isEmpty = true
      · simp [he, ih, hmiss, Dict.get?_cons, Option.filter]
      · simp [he, Dict.get?_cons, Option.filter]
    · by_cases he : v.isEmpty = true
      · simp [he, ih, Dict.get?_cons, hname]
      · simp [he, ih, Dict.get?_cons, hname]

end AttributeMap

end TableClient
