import Mathlib
import TableClient.Key.Identity
import TableClient.Proofs.MessagePack

/-!
# Keys of one identity

What a key is known by gives back the table and the values of the key attributes, in the order of
the layout. It does not give back their names: two layouts under which two items have the same
values make one key of them.

Results:
* `pack_delimits`: the bytes of an attribute give the attribute, whatever stands behind them.
* `identity_inj`: two keys are known by the same bytes exactly when their tables and their values
  in order are the same.
* `identity_eq_iff`: so it is under one layout exactly when they agree on its attributes.
-/

namespace TableClient

open MessagePack (Bytes Delimits)

namespace Attribute

/-! ## Attributes -/

theorem packItems_eq (items : List Attribute) : packItems items = items.map pack := by
  induction items with
  | nil => rfl
  | cons item items ih => rw [packItems, ih, List.map_cons]

theorem packFields_eq (fields : List (String × Attribute)) :
    packFields fields = fields.map fun field => (MessagePack.string field.1, pack field.2) := by
  induction fields with
  | nil => rfl
  | cons field fields ih =>
    obtain ⟨name, value⟩ := field
    rw [packFields, ih, List.map_cons]

/-- A content under a tag gives the tag and the content. -/
theorem tagged_append_inj {tag tag' : String} {content content' r s : Bytes}
    (h : pack.tagged tag content ++ r = pack.tagged tag' content' ++ s) :
    tag = tag' ∧ content ++ r = content' ++ s := by
  simp only [pack.tagged, MessagePack.map, List.append_assoc] at h
  obtain ⟨-, h⟩ := MessagePack.head_append_inj MessagePack.distinct_map h
  simp only [List.flatMap_cons, List.flatMap_nil, List.append_nil, List.append_assoc] at h
  exact MessagePack.string_append_inj tag tag' _ _ h

theorem packBytes_delimits (bytes : List UInt8) : Delimits pack.packBytes bytes :=
  MessagePack.array_append_inj fun byte _ => MessagePack.byte_delimits byte

theorem strings_delimit (texts : List String) :
    Delimits (fun texts => MessagePack.array (texts.map MessagePack.string)) texts :=
  MessagePack.array_append_inj fun text _ => MessagePack.string_append_inj text

theorem tag_of_pack_append {a b : Attribute} {r s : Bytes} (h : a.pack ++ r = b.pack ++ s) :
    a.tag = b.tag := by
  cases a <;> cases b <;> exact (tagged_append_inj h).1

/-- Attributes of one tag are told apart if their contents are. -/
theorem delimits_of_content {α : Type} (mk : α → Attribute) {content : α → Bytes}
    (hpack : ∀ x, (mk x).pack = pack.tagged (mk x).tag (content x))
    (hmk : ∀ x b, b.tag = (mk x).tag → ∃ y, b = mk y) {x : α} (hx : Delimits content x) :
    Delimits pack (mk x) := by
  intro b r s h
  obtain ⟨y, rfl⟩ := hmk x b (tag_of_pack_append h).symm
  rw [hpack, hpack] at h
  obtain ⟨rfl, hrest⟩ := hx y r s (tagged_append_inj h).2
  exact ⟨rfl, hrest⟩

mutual

/-- The bytes of an attribute give the attribute, whatever stands behind them. -/
theorem pack_delimits : ∀ a : Attribute, Delimits pack a
  | .string value => delimits_of_content .string (fun _ => rfl)
      (fun _ b h => by cases b <;> simp_all [tag]) (MessagePack.string_append_inj value)
  | .number text => delimits_of_content .number (fun _ => rfl)
      (fun _ b h => by cases b <;> simp_all [tag]) (MessagePack.string_append_inj text)
  | .binary bytes => delimits_of_content .binary (fun _ => rfl)
      (fun _ b h => by cases b <;> simp_all [tag]) (packBytes_delimits bytes)
  | .bool value => delimits_of_content .bool (fun _ => rfl)
      (fun _ b h => by cases b <;> simp_all [tag]) (MessagePack.bool_delimits value)
  | .null flag => delimits_of_content .null (fun _ => rfl)
      (fun _ b h => by cases b <;> simp_all [tag]) (MessagePack.bool_delimits flag)
  | .map fields => delimits_of_content .map
      (fun fields => by rw [← packFields_eq]; rfl)
      (fun _ b h => by cases b <;> simp_all [tag])
      (MessagePack.map_append_inj (fun field _ => MessagePack.string_append_inj field.1)
        (packFields_delimit fields))
  | .list items => delimits_of_content .list
      (fun items => by rw [← packItems_eq]; rfl)
      (fun _ b h => by cases b <;> simp_all [tag])
      (MessagePack.array_append_inj (packItems_delimit items))
  | .stringSet items => delimits_of_content .stringSet (fun _ => rfl)
      (fun _ b h => by cases b <;> simp_all [tag]) (strings_delimit items)
  | .numberSet items => delimits_of_content .numberSet (fun _ => rfl)
      (fun _ b h => by cases b <;> simp_all [tag]) (strings_delimit items)
  | .binarySet items => delimits_of_content .binarySet (fun _ => rfl)
      (fun _ b h => by cases b <;> simp_all [tag])
      (MessagePack.array_append_inj fun bytes _ => packBytes_delimits bytes)

theorem packItems_delimit : ∀ items : List Attribute, ∀ item ∈ items, Delimits pack item
  | [], _, hm => absurd hm List.not_mem_nil
  | first :: rest, item, hm => by
    rcases List.mem_cons.mp hm with h | h
    · exact h ▸ pack_delimits first
    · exact packItems_delimit rest item h

theorem packFields_delimit :
    ∀ fields : List (String × Attribute), ∀ field ∈ fields, Delimits pack field.2
  | [], _, hm => absurd hm List.not_mem_nil
  | (name, value) :: rest, field, hm => by
    rcases List.mem_cons.mp hm with h | h
    · exact h ▸ pack_delimits value
    · exact packFields_delimit rest field h

end

/-- A missing attribute is told from every other. -/
theorem packOption_delimits (a : Option Attribute) : Delimits packOption a := by
  have hhead : ∀ (value : Attribute) (r s : Bytes),
      packOption none ++ r ≠ packOption (some value) ++ s := by
    intro value r s h
    have := congrArg List.head? h
    cases value <;> exact absurd this (by simp [packOption, MessagePack.nil, pack, pack.tagged,
      MessagePack.map, MessagePack.head, MessagePack.shortestHead, MessagePack.SizedKind.map])
  intro b r s h
  cases a with
  | none =>
    cases b with
    | none => exact ⟨rfl, List.append_cancel_left h⟩
    | some b => exact absurd h (hhead b r s)
  | some a =>
    cases b with
    | none => exact absurd h.symm (hhead a s r)
    | some b =>
      obtain ⟨rfl, hrest⟩ := pack_delimits a b r s h
      exact ⟨rfl, hrest⟩

end Attribute

namespace KeyLayout

/-! ## Keys -/

/-- The values that an item has for the attributes of a layout, in the order of the layout. -/
def values (layout : KeyLayout) (item : AttributeMap) : List (Option Attribute) :=
  layout.names.map fun name => Dict.get? item name

/-- Two keys are known by the same bytes exactly when their tables and their values in order are
    the same. -/
theorem identity_inj {layout layout' : KeyLayout} {table table' : String} {a b : AttributeMap} :
    layout.identity table a = layout'.identity table' b ↔
      table = table' ∧ layout.values a = layout'.values b := by
  have hidentity : ∀ (layout : KeyLayout) (table : String) (item : AttributeMap),
      layout.identity table item = MessagePack.head .array 2 ++ (MessagePack.string table ++
        (MessagePack.array ((layout.values item).map Attribute.packOption) ++ [])) := by
    intro layout table item
    simp [KeyLayout.identity, MessagePack.array, values, Function.comp_def]
  constructor
  · intro h
    rw [hidentity, hidentity] at h
    obtain ⟨-, h⟩ := MessagePack.head_append_inj MessagePack.distinct_array h
    obtain ⟨htable, h⟩ := MessagePack.string_append_inj _ _ _ _ h
    exact ⟨htable, (MessagePack.array_append_inj
      (fun value _ => Attribute.packOption_delimits value) _ _ _ h).1⟩
  · rintro ⟨rfl, h⟩
    rw [hidentity, hidentity, h]

/-- Under one layout, two items have the same values exactly when they agree on its names. -/
theorem values_eq_iff (layout : KeyLayout) (a b : AttributeMap) :
    layout.values a = layout.values b ↔
      ∀ name ∈ layout.names, Dict.get? a name = Dict.get? b name := by
  simp [values, List.map_inj_left]

/-- Under one layout, two keys are known by the same bytes exactly when they are of one table and
    each attribute of the layout is missing in both items or the same in both. -/
theorem identity_eq_iff (layout : KeyLayout) (table table' : String) (a b : AttributeMap) :
    layout.identity table a = layout.identity table' b ↔
      table = table' ∧ ∀ name ∈ layout.names,
        (Dict.get? a name = none ∧ Dict.get? b name = none) ∨
          ∃ value, Dict.get? a name = some value ∧ Dict.get? b name = some value := by
  rw [identity_inj, values_eq_iff]
  refine and_congr_right fun _ => forall₂_congr fun name _ => ?_
  constructor
  · intro hsame
    rw [hsame]
    cases Dict.get? b name with
    | none => exact .inl ⟨rfl, rfl⟩
    | some value => exact .inr ⟨value, rfl, rfl⟩
  · rintro (⟨ha, hb⟩ | ⟨value, ha, hb⟩) <;> rw [ha, hb]

/-- The table, a tagged value and a missing one: an array of two with an array of two in it. -/
example : (ofHashRange "h" "r").identity "t" [("h", .string "x"), ("other", .bool true)] =
    [0x92, 0xA1, 0x74, 0x92, 0x81, 0xA1, 0x53, 0xA1, 0x78, 0xC0] := by decide

end KeyLayout

end TableClient
