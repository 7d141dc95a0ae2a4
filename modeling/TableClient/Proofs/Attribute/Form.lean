import Mathlib
import TableClient.Attribute.Form
import TableClient.Proofs.Json.Wire

/-!
# Attributes are read back

An attribute whose maps are in order is read back from its form, at any depth. What is read has its
maps in order and is written again no deeper than it stood there.

Results:
* `content_plain`, `read?_content`: the form of an attribute is plain and reads back.
* `of_read?`: what is read is in order and no deeper than what it is read from.
-/

namespace TableClient

namespace Attribute

mutual

/-- The maps in a value are in the order of their names. -/
def Ordered : Attribute → Prop
  | .map fields => Dict.Sorted fields ∧ OrderedFields fields
  | .list items => OrderedItems items
  | _ => True

/-- Every item is ordered. -/
def OrderedItems : List Attribute → Prop
  | [] => True
  | item :: items => Ordered item ∧ OrderedItems items

/-- The value of every field is ordered. -/
def OrderedFields : List (String × Attribute) → Prop
  | [] => True
  | (_, value) :: fields => Ordered value ∧ OrderedFields fields

end

theorem keys_contentFields (fields : Dict Attribute) :
    Dict.keys (contentFields fields) = Dict.keys fields := by
  induction fields with
  | nil => rfl
  | cons field fields ih =>
    obtain ⟨name, value⟩ := field
    simp [contentFields, ih]

variable {source : Source}

mutual

theorem content_plain : ∀ value : Attribute, value.content.Plain
  | .string _ | .number _ | .bool _ | .null _ => trivial
  | .binary bytes => plain_toJson bytes
  | .stringSet items | .numberSet items => plain_toJson items
  | .binarySet items => plain_toJson items
  | .map fields => contentFields_plain fields
  | .list items => contentItems_plain items

theorem contentItems_plain : ∀ items : List Attribute, Json.PlainItems (contentItems items)
  | [] => trivial
  | item :: items => ⟨⟨content_plain item, trivial⟩, contentItems_plain items⟩

theorem contentFields_plain :
    ∀ fields : List (String × Attribute), Json.PlainFields (contentFields fields)
  | [] => trivial
  | (_, value) :: fields => ⟨⟨content_plain value, trivial⟩, contentFields_plain fields⟩

end

/-- Bytes and sets are read back from the array that they are written as. -/
theorem readFrom?_array {α : Type} [JsonForm α] [WireForm α] [Mapless α] (items : List α) :
    readFrom? source (.array ((items.map toJson).map source.see)) = some items :=
  readItems?_see fun item _ => ordered_of_mapless item

mutual

/-- An attribute is read back from its tag and content. -/
theorem read?_content : ∀ {value : Attribute}, value.Ordered →
    read? source (.object [(value.tag, source.see value.content)]) = some value
  | .string _, _ | .number _, _ | .bool _, _ | .null _, _ => by
    rw [content, Source.see_eq_self rfl]
    simp [tag, read?]
  | .binary items, _ | .stringSet items, _ | .numberSet items, _ | .binarySet items, _ => by
    rw [content, Source.see_toJson_list]
    simp [tag, read?, readFrom?_array items, -List.map_map]
  | .map fields, h => by
    rw [Ordered] at h
    have hsorted : Dict.Sorted (contentFields fields) :=
      Dict.sorted_congr (keys_contentFields fields).symm h.1
    rw [content, Source.see_object hsorted]
    simp [tag, read?, readFields?_content h.2, Dict.ofList_of_sorted h.1]
  | .list items, h => by
    rw [Ordered] at h
    rw [content, Source.see_array]
    simp [tag, read?, readItems?_content h]

theorem readItems?_content : ∀ {items : List Attribute}, OrderedItems items →
    readItems? source ((contentItems items).map source.see) = some items
  | [], _ => rfl
  | item :: items, h => by
    rw [OrderedItems] at h
    simp [contentItems, readItems?, Source.see_singleton, read?_content h.1, readItems?_content h.2]

theorem readFields?_content : ∀ {fields : List (String × Attribute)}, OrderedFields fields →
    readFields? source ((contentFields fields).map fun field => (field.1, source.see field.2)) =
      some fields
  | [], _ => rfl
  | (_, value) :: fields, h => by
    rw [OrderedFields] at h
    simp [contentFields, readFields?, Source.see_singleton, read?_content h.1, readFields?_content h.2]

end

theorem orderedFields_iff {fields : List (String × Attribute)} :
    OrderedFields fields ↔ ∀ field ∈ fields, field.2.Ordered := by
  induction fields with
  | nil => simp [OrderedFields]
  | cons field fields ih => simp [OrderedFields, ih]

theorem depth_contentFields_le_iff {fields : List (String × Attribute)} {room : ℕ} :
    Json.depthFields (contentFields fields) ≤ room ↔
      ∀ field ∈ fields, field.2.content.depth + 1 ≤ room := by
  induction fields with
  | nil => simp [contentFields, Json.depthFields]
  | cons field fields ih =>
    simp [contentFields, Json.depthFields, Json.depth, ih]

/-- Bytes and sets are written no deeper than they stood there. -/
theorem depth_le_of_readFrom? {α : Type} [JsonForm α] [WireForm α] {json : Json} {value : α}
    (hheight : WireForm.height α = 0) (h : readFrom? source json = some value) :
    (toJson value).depth ≤ json.depth := by
  have hdepth := WireForm.depth_le h
  rwa [hheight, max_eq_left (Nat.zero_le _)] at hdepth

mutual

/-- What is read is in order and no deeper than what it is read from. -/
theorem of_read? : ∀ {json : Json} {value : Attribute}, read? source json = some value →
    value.Ordered ∧ value.content.depth + 1 ≤ json.depth
  | .object [(_, .object fields)], value, h => by
    rw [read?] at h
    split_ifs at h
    obtain ⟨read, hread, rfl⟩ := Option.map_eq_some_iff.mp h
    obtain ⟨hordered, hdepth⟩ := of_readFields? hread
    have hmem : ∀ field ∈ Dict.ofList read, field ∈ read := fun _ => Dict.mem_of_mem_ofList
    refine ⟨⟨Dict.sorted_ofList read, orderedFields_iff.mpr fun field hfield =>
      orderedFields_iff.mp hordered field (hmem field hfield)⟩, ?_⟩
    have hfields : Json.depthFields (contentFields (Dict.ofList read)) ≤ Json.depthFields fields :=
      depth_contentFields_le_iff.mpr fun field hfield =>
        depth_contentFields_le_iff.mp hdepth field (hmem field hfield)
    simp only [content, Json.depth, Json.depthFields]
    omega
  | .object [(name, .array items)], value, h => by
    have hcontent : ∀ {content : Json}, content.depth ≤ (Json.array items).depth →
        content.depth + 1 ≤ (Json.object [(name, .array items)]).depth := fun hle => by
      simp only [Json.depth, Json.depthFields] at hle ⊢
      omega
    rw [read?] at h
    split_ifs at h
    all_goals obtain ⟨read, hread, rfl⟩ := Option.map_eq_some_iff.mp h
    · obtain ⟨hordered, hdepth⟩ := of_readItems? hread
      exact ⟨hordered, hcontent (Nat.succ_le_succ hdepth)⟩
    all_goals exact ⟨trivial, hcontent (depth_le_of_readFrom? rfl hread)⟩
  | .object [(_, .string _)], value, h | .object [(_, .bool _)], value, h => by
    rw [read?] at h
    split_ifs at h <;> cases h <;> exact ⟨trivial, le_rfl⟩
  | .object [(_, .null)], _, h | .object [(_, .number _)], _, h => by cases h
  | .object [], _, h => by cases h
  | .object ((_, value) :: _ :: _), _, h => by cases value <;> cases h
  | .null, _, h | .bool _, _, h | .number _, _, h | .string _, _, h | .array _, _, h => by cases h

theorem of_readItems? : ∀ {items : List Json} {values : List Attribute},
    readItems? source items = some values →
      OrderedItems values ∧ Json.depthItems (contentItems values) ≤ Json.depthItems items
  | [], _, h => by cases h; exact ⟨trivial, le_rfl⟩
  | item :: items, values, h => by
    simp only [readItems?, Option.bind_eq_bind, Option.bind_eq_some_iff] at h
    obtain ⟨first, hfirst, rest, hrest, heq⟩ := h
    cases heq
    obtain ⟨hordered, hdepth⟩ := of_read? hfirst
    obtain ⟨hall, hroom⟩ := of_readItems? hrest
    refine ⟨⟨hordered, hall⟩, ?_⟩
    simp only [contentItems, Json.depthItems, Json.depth, Json.depthFields]
    omega

theorem of_readFields? : ∀ {fields : List (String × Json)} {values : List (String × Attribute)},
    readFields? source fields = some values →
      OrderedFields values ∧ Json.depthFields (contentFields values) ≤ Json.depthFields fields
  | [], _, h => by cases h; exact ⟨trivial, le_rfl⟩
  | (name, json) :: fields, values, h => by
    simp only [readFields?, Option.bind_eq_bind, Option.bind_eq_some_iff] at h
    obtain ⟨value, hvalue, rest, hrest, heq⟩ := h
    cases heq
    obtain ⟨hordered, hdepth⟩ := of_read? hvalue
    obtain ⟨hall, hroom⟩ := of_readFields? hrest
    refine ⟨⟨hordered, hall⟩, ?_⟩
    simp only [contentFields, Json.depthFields, Json.depth]
    omega

end

end Attribute

instance : WireForm Attribute where
  Ordered := Attribute.Ordered
  height := 0
  plain_toJson value := ⟨Attribute.content_plain value, trivial⟩
  reads_back {value} h source :=
    (congrArg _ (Source.see_singleton value.tag value.content)).trans (Attribute.read?_content h)
  ordered_of_readFrom? h := (Attribute.of_read? h).1
  depth_le {source json value} h := by
    obtain ⟨-, hdepth⟩ := Attribute.of_read? h
    simp only [toJson, Json.depth, Json.depthFields]
    omega

end TableClient
