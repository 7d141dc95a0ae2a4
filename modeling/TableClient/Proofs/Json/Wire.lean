import Mathlib
import TableClient.Json.Form
import TableClient.Proofs.Json.Text

/-!
# JSON forms that are read back

A type whose values are read back from their JSON forms, provided that the maps they hold are in the
order of their names, as the maps of everything that is read are. What is read is written again
hardly deeper than it stood in the text: a default may be written that was not there to be read, but
no deeper than a bound that the type has. Lists, maps and absent values of such a type are of this
kind again.

Results:
* `Source.see_eq_self`, `Source.see_array`, `Source.see_object`: what there is to read of a value.
* instances of `WireForm` for the basic types, lists, maps and absent values.
-/

namespace TableClient

/-! ## What there is to read -/

namespace Source

variable {source : Source}

theorem see_eq_self {json : Json} (h : json.depth = 0) : source.see json = json := by
  cases source with
  | text => rfl
  | value => cases json <;> first | rfl | contradiction

theorem see_ne_null {json : Json} (h : json ≠ .null) : source.see json ≠ .null := by
  cases source with
  | text => exact h
  | value => cases json <;> first | exact absurd rfl h | exact fun heq => nomatch heq

theorem depth_see_le (json : Json) : (source.see json).depth ≤ json.depth := by
  cases source with
  | text => exact le_rfl
  | value => exact Json.depth_settle_le json

theorem see_array (items : List Json) : source.see (.array items) = .array (items.map source.see) := by
  cases source with
  | text => exact congrArg Json.array (List.map_id' items).symm
  | value => exact congrArg Json.array (Json.settleItems_eq_map items)

theorem see_toJson_list {α : Type} [JsonForm α] (items : List α) :
    source.see (toJson items) = .array ((items.map toJson).map source.see) :=
  see_array _

/-- Of fields that are in order each is there to be read. -/
theorem see_object {fields : Dict Json} (h : Dict.Sorted fields) :
    source.see (.object fields) = .object (fields.map fun field => (field.1, source.see field.2)) := by
  cases source with
  | text => exact congrArg Json.object (List.map_id' fields).symm
  | value => exact Json.settle_object_of_sorted h

theorem see_singleton (name : String) (value : Json) :
    source.see (.object [(name, value)]) = .object [(name, source.see value)] :=
  see_object (List.pairwise_singleton _ _)

/-- Of an object whose fields have different names each field is there to be read. -/
theorem exists_see_object {entries : List (String × Json)} (h : (Dict.keys entries).Nodup) :
    ∃ fields, source.see (.object entries) = .object fields ∧ (Dict.keys fields).Nodup ∧
      ∀ name, Dict.get? fields name = (Dict.get? entries name).map source.see := by
  cases source with
  | text => exact ⟨entries, rfl, h, fun name => Option.map_id'.symm⟩
  | value =>
    refine ⟨_, rfl, (Dict.sorted_ofList _).nodup_keys, fun name => ?_⟩
    have hkeys : Dict.keys (Json.settleFields entries) = Dict.keys entries := by
      simp [Json.settleFields_eq_map, Dict.keys]
    rw [Dict.get?_ofList (hkeys ▸ h), Json.settleFields_eq_map, Dict.get?_map]
    rfl

end Source

/-! ## Types that are read back -/

/-- Types whose values are read back from their JSON forms. -/
class WireForm (α : Type) [JsonForm α] where
  /-- The maps that a value holds are in the order of their names. -/
  Ordered : α → Prop
  /-- How deep the defaults are that may be written where nothing was read. -/
  height : ℕ
  plain_toJson : ∀ value : α, (toJson value).Plain
  reads_back : ∀ {value : α}, Ordered value → ∀ source : Source,
    readFrom? source (source.see (toJson value)) = some value
  ordered_of_readFrom? : ∀ {source : Source} {json : Json} {value : α},
    readFrom? source json = some value → Ordered value
  depth_le : ∀ {source : Source} {json : Json} {value : α}, readFrom? source json = some value →
    (toJson value).depth ≤ max json.depth height

export WireForm (Ordered plain_toJson reads_back ordered_of_readFrom?)

/-- Types whose values hold no maps. -/
class Mapless (α : Type) [JsonForm α] [WireForm α] : Prop where
  ordered : ∀ value : α, Ordered value

/-- Types none of whose values is written as null. -/
class NeverNull (α : Type) [JsonForm α] : Prop where
  toJson_ne_null : ∀ value : α, toJson value ≠ .null

/-- The form of a type whose values are written without arrays and objects. -/
abbrev WireForm.ofAtoms {α : Type} [JsonForm α] (plain : ∀ value : α, (toJson value).Plain)
    (flat : ∀ value : α, (toJson value).depth = 0)
    (back : ∀ (source : Source) (value : α), readFrom? source (toJson value) = some value) :
    WireForm α where
  Ordered _ := True
  height := 0
  plain_toJson := plain
  reads_back {value} _ source := (Source.see_eq_self (flat value)).symm ▸ back source value
  ordered_of_readFrom? _ := trivial
  depth_le {_ _ value} _ := (flat value).le.trans (Nat.zero_le _)

theorem ordered_of_mapless {α : Type} [JsonForm α] [WireForm α] [Mapless α] (value : α) :
    Ordered value :=
  Mapless.ordered value

/-! ## Basic types -/

instance : WireForm Bool := .ofAtoms (fun _ => trivial) (fun _ => rfl) fun _ _ => rfl

instance : WireForm String := .ofAtoms (fun _ => trivial) (fun _ => rfl) fun _ _ => rfl

theorem intWithin?_nat {n : ℕ} {greatest : ℤ} (h : n ≤ greatest) :
    (Json.nat n).intWithin? 0 greatest = some (n : ℤ) := by
  simp [Json.nat, Json.int, Json.intWithin?, Json.asInt?, Option.filter, h]

theorem plain_nat {n : ℕ} (h : n < 0x10000000000000000) : (Json.nat n).Plain := by
  have hfits : JsonNumber.fits n = true := by
    simp [JsonNumber.fits]
    omega
  exact hfits

instance : WireForm UInt8 :=
  .ofAtoms (fun n => plain_nat (n.toNat_lt.trans (by decide))) (fun _ => rfl) fun source n => by
    have hn := n.toNat_lt
    have hread : (Json.nat n.toNat).intWithin? 0 255 = some (n.toNat : ℤ) :=
      intWithin?_nat (by omega)
    simp [toJson, readFrom?, hread]

instance : WireForm UInt64 :=
  .ofAtoms (fun n => plain_nat n.toNat_lt) (fun _ => rfl) fun source n => by
    have hn := n.toNat_lt
    have hread : (Json.nat n.toNat).intWithin? 0 0xFFFFFFFFFFFFFFFF = some (n.toNat : ℤ) :=
      intWithin?_nat (by omega)
    simp [toJson, readFrom?, hread]

instance : Mapless Bool := ⟨fun _ => trivial⟩
instance : Mapless String := ⟨fun _ => trivial⟩
instance : Mapless UInt8 := ⟨fun _ => trivial⟩
instance : Mapless UInt64 := ⟨fun _ => trivial⟩

instance : NeverNull String := ⟨fun _ h => nomatch h⟩
instance : NeverNull UInt64 := ⟨fun _ h => nomatch h⟩

/-! ## Lists, maps and absent values -/

/-- How deep defaults are in an array or object around values. Without values in it there is no
    default in it either, so that it is as deep as it was read. -/
def outerHeight : ℕ → ℕ
  | 0 => 0
  | height + 1 => height + 2

theorem succ_le_max_outerHeight {depth read height : ℕ} (h : depth ≤ max read height) :
    depth + 1 ≤ max (read + 1) (outerHeight height) := by
  cases height <;> simp only [outerHeight] <;> omega

section Containers

variable {α : Type} [JsonForm α] [WireForm α] {source : Source}

theorem readItems?_see {items : List α} (h : ∀ item ∈ items, Ordered item) :
    readItems? source ((items.map toJson).map source.see) = some items := by
  induction items with
  | nil => rfl
  | cons item items ih =>
    obtain ⟨hitem, hitems⟩ := List.forall_mem_cons.mp h
    simp only [List.map_cons, readItems?, reads_back hitem, ih hitems]
    rfl

/-- The items that are read are in order and not much deeper than they stood there. -/
theorem of_readItems? {items : List Json} {values : List α}
    (h : readItems? source items = some values) : ∀ value ∈ values,
      Ordered value ∧ (toJson value).depth ≤ max (Json.depthItems items) (WireForm.height α) := by
  induction items generalizing values with
  | nil => cases h; simp
  | cons item items ih =>
    simp only [readItems?, Option.bind_eq_bind, Option.bind_eq_some_iff] at h
    obtain ⟨first, hfirst, rest, hrest, heq⟩ := h
    cases heq
    have hdepth := WireForm.depth_le hfirst
    refine List.forall_mem_cons.mpr ⟨⟨ordered_of_readFrom? hfirst, ?_⟩, fun value hvalue => ?_⟩
    · simp only [Json.depthItems]
      omega
    · obtain ⟨hordered, hle⟩ := ih hrest value hvalue
      simp only [Json.depthItems]
      exact ⟨hordered, by omega⟩

instance : WireForm (List α) where
  Ordered items := ∀ item ∈ items, Ordered item
  height := outerHeight (WireForm.height α)
  plain_toJson items := by
    refine Json.everyNumberItems_iff.mpr fun json hjson => ?_
    obtain ⟨item, -, rfl⟩ := List.mem_map.mp hjson
    exact plain_toJson item
  reads_back h source := by
    rw [Source.see_toJson_list]
    exact readItems?_see h
  ordered_of_readFrom? {source json items} h := by
    cases json with
    | array => exact fun item hitem => (of_readItems? h item hitem).1
    | _ => cases h
  depth_le {source json items} h := by
    cases json with
    | array =>
      refine succ_le_max_outerHeight (Json.depthItems_le_iff.mpr fun item hitem => ?_)
      obtain ⟨value, hvalue, rfl⟩ := List.mem_map.mp hitem
      exact (of_readItems? h value hvalue).2
    | _ => cases h

theorem readEntries?_see {d : Dict α} (h : ∀ entry ∈ d, Ordered entry.2) :
    readEntries? source ((d.map fun entry => (entry.1, toJson entry.2)).map
      fun field => (field.1, source.see field.2)) = some d := by
  induction d with
  | nil => rfl
  | cons entry d ih =>
    obtain ⟨hentry, hd⟩ := List.forall_mem_cons.mp h
    simp only [List.map_cons, readEntries?, reads_back hentry, ih hd]
    rfl

/-- The values that are read are in order and not much deeper than they stood there. -/
theorem of_readEntries? {fields : List (String × Json)} {d : Dict α}
    (h : readEntries? source fields = some d) : ∀ entry ∈ d,
      Ordered entry.2 ∧
        (toJson entry.2).depth ≤ max (Json.depthFields fields) (WireForm.height α) := by
  induction fields generalizing d with
  | nil => cases h; simp
  | cons field fields ih =>
    obtain ⟨name, json⟩ := field
    simp only [readEntries?, Option.bind_eq_bind, Option.bind_eq_some_iff] at h
    obtain ⟨value, hvalue, rest, hrest, heq⟩ := h
    cases heq
    have hdepth := WireForm.depth_le hvalue
    refine List.forall_mem_cons.mpr ⟨⟨ordered_of_readFrom? hvalue, ?_⟩, fun entry hentry => ?_⟩
    · simp only [Json.depthFields]
      omega
    · obtain ⟨hordered, hle⟩ := ih hrest entry hentry
      simp only [Json.depthFields]
      exact ⟨hordered, by omega⟩

instance : WireForm (Dict α) where
  Ordered d := Dict.Sorted d ∧ ∀ entry ∈ d, Ordered entry.2
  height := outerHeight (WireForm.height α)
  plain_toJson d := by
    refine Json.everyNumberFields_iff.mpr fun field hfield => ?_
    obtain ⟨entry, -, rfl⟩ := List.mem_map.mp hfield
    exact plain_toJson entry.2
  reads_back {d} h source := by
    have hsorted : Dict.Sorted (d.map fun entry => (entry.1, toJson entry.2)) :=
      Dict.sorted_congr (by simp [Dict.keys]) h.1
    change readFrom? source (source.see (.object _)) = _
    rw [Source.see_object hsorted]
    change (readEntries? source _).map Dict.ofList = _
    rw [readEntries?_see h.2, Option.map_some, Dict.ofList_of_sorted h.1]
  ordered_of_readFrom? {source json d} h := by
    cases json with
    | object fields =>
      obtain ⟨read, hread, rfl⟩ := Option.map_eq_some_iff.mp h
      exact ⟨Dict.sorted_ofList read, fun entry hentry =>
        (of_readEntries? hread entry (Dict.mem_of_mem_ofList hentry)).1⟩
    | _ => cases h
  depth_le {source json d} h := by
    cases json with
    | object fields =>
      obtain ⟨read, hread, rfl⟩ := Option.map_eq_some_iff.mp h
      refine succ_le_max_outerHeight (Json.depthFields_le_iff.mpr fun field hfield => ?_)
      obtain ⟨entry, hentry, rfl⟩ := List.mem_map.mp hfield
      exact (of_readEntries? hread entry (Dict.mem_of_mem_ofList hentry)).2
    | _ => cases h

omit [WireForm α] in
theorem readFrom?_option {json : Json} (h : json ≠ .null) :
    (readFrom? source json : Option (Option α)) = (readFrom? source json).map some := by
  cases json <;> first | rfl | exact absurd rfl h

instance [NeverNull α] : WireForm (Option α) where
  Ordered value := ∀ content ∈ value, Ordered content
  height := WireForm.height α
  plain_toJson value := by
    cases value with
    | none => trivial
    | some content => exact plain_toJson content
  reads_back {value} h source := by
    cases value with
    | none => cases source <;> rfl
    | some content =>
      change readFrom? source (source.see (toJson content)) = _
      rw [readFrom?_option (Source.see_ne_null (NeverNull.toJson_ne_null content)),
        reads_back (h content rfl)]
      rfl
  ordered_of_readFrom? {source json value} h := by
    by_cases hnull : json = .null
    · subst hnull
      cases h
      simp
    · rw [readFrom?_option hnull, Option.map_eq_some_iff] at h
      obtain ⟨content, hcontent, rfl⟩ := h
      rintro _ ⟨⟩
      exact ordered_of_readFrom? hcontent
  depth_le {source json value} h := by
    by_cases hnull : json = .null
    · subst hnull
      cases h
      exact Nat.zero_le _
    · rw [readFrom?_option hnull, Option.map_eq_some_iff] at h
      obtain ⟨content, hcontent, rfl⟩ := h
      exact WireForm.depth_le hcontent

instance [Mapless α] : Mapless (List α) := ⟨fun _ _ _ => Mapless.ordered _⟩

instance [NeverNull α] [Mapless α] : Mapless (Option α) := ⟨fun _ _ _ => Mapless.ordered _⟩

instance : NeverNull (Dict α) := ⟨fun _ h => nomatch h⟩

end Containers

end TableClient
