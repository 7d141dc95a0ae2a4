import Mathlib
import TableClient.Json.Reader
import TableClient.Proofs.Dict

/-!
# What a text can be read as

Reading a text gives a canonical value, in which no more arrays and objects stand in one another
than there is room for: whatever the reader has at hand leaves room, after each of its steps, for
what stands around it.

Results:
* `canonical_settle`, `depth_settle_le`: what settling a value does.
* `startValue?_within`, `finishValue?_within`: a step keeps the values within their room.
* `within_of_written?`, `canonical_of_ofText?`: what a text is read as.
-/

namespace TableClient

/-- The integers that a text can be read as: those of 64 bits. Any float can be read. -/
def JsonNumber.Fits (number : JsonNumber) : Prop := ∀ n, number = .int n → fits n = true

namespace Json

/-! ## Numbers and depth -/

mutual

/-- Every number in a value satisfies `P`. -/
def EveryNumber (P : JsonNumber → Prop) : Json → Prop
  | .number x => P x
  | .array items => EveryNumberItems P items
  | .object fields => EveryNumberFields P fields
  | _ => True

/-- Every number in the items of an array satisfies `P`. -/
def EveryNumberItems (P : JsonNumber → Prop) : List Json → Prop
  | [] => True
  | item :: items => EveryNumber P item ∧ EveryNumberItems P items

/-- Every number in the fields of an object satisfies `P`. -/
def EveryNumberFields (P : JsonNumber → Prop) : List (String × Json) → Prop
  | [] => True
  | (_, value) :: fields => EveryNumber P value ∧ EveryNumberFields P fields

end

mutual

/-- How many arrays and objects stand in one another. -/
def depth : Json → ℕ
  | .array items => depthItems items + 1
  | .object fields => depthFields fields + 1
  | _ => 0

/-- The depth of the deepest item. -/
def depthItems : List Json → ℕ
  | [] => 0
  | item :: items => max (depth item) (depthItems items)

/-- The depth of the deepest value of a field. -/
def depthFields : List (String × Json) → ℕ
  | [] => 0
  | (_, value) :: fields => max (depth value) (depthFields fields)

end

variable {P : JsonNumber → Prop} {items : List Json} {fields : List (String × Json)} {room : ℕ}

theorem everyNumberItems_iff : EveryNumberItems P items ↔ ∀ item ∈ items, item.EveryNumber P := by
  induction items with
  | nil => simp [EveryNumberItems]
  | cons item items ih => simp [EveryNumberItems, ih]

theorem everyNumberFields_iff :
    EveryNumberFields P fields ↔ ∀ field ∈ fields, field.2.EveryNumber P := by
  induction fields with
  | nil => simp [EveryNumberFields]
  | cons field fields ih => simp [EveryNumberFields, ih]

theorem depthItems_le_iff : depthItems items ≤ room ↔ ∀ item ∈ items, item.depth ≤ room := by
  induction items with
  | nil => simp [depthItems]
  | cons item items ih => simp [depthItems, ih]

theorem depthFields_le_iff : depthFields fields ≤ room ↔ ∀ field ∈ fields, field.2.depth ≤ room := by
  induction fields with
  | nil => simp [depthFields]
  | cons field fields ih => simp [depthFields, ih]

theorem depth_singleton (name : String) (value : Json) :
    (object [(name, value)]).depth = value.depth + 1 := by
  simp [depth, depthFields]

/-! ## Settling -/

theorem canonicalFields_iff :
    CanonicalFields fields ↔ ∀ field ∈ fields, field.2.Canonical := by
  induction fields with
  | nil => simp [CanonicalFields]
  | cons field fields ih => simp [CanonicalFields, ih]

theorem settleItems_eq_map (items : List Json) : settleItems items = items.map settle := by
  induction items with
  | nil => rfl
  | cons item items ih => rw [settleItems, ih, List.map_cons]

theorem settleFields_eq_map (fields : List (String × Json)) :
    settleFields fields = fields.map fun field => (field.1, field.2.settle) := by
  induction fields with
  | nil => rfl
  | cons field fields ih => rw [settleFields, ih, List.map_cons]

/-- An object of fields that are in order is settled field by field. -/
theorem settle_object_of_sorted {fields : Dict Json} (h : Dict.Sorted fields) :
    (object fields).settle = .object (fields.map fun field => (field.1, field.2.settle)) := by
  have hkeys : Dict.keys fields = Dict.keys (fields.map fun field => (field.1, field.2.settle)) := by
    simp [Dict.keys]
  rw [settle, settleFields_eq_map, Dict.ofList_of_sorted (Dict.sorted_congr hkeys h)]

mutual

theorem canonical_settle : ∀ {json : Json}, json.EveryNumber JsonNumber.Fits → json.settle.Canonical
  | .number (.int n), h => h n rfl
  | .number (.float _), _ | .null, _ | .bool _, _ | .string _, _ => trivial
  | .array _, h => canonical_settleItems h
  | .object _, h => ⟨Dict.sorted_ofList _, canonicalFields_iff.mpr fun field hfield =>
      canonicalFields_iff.mp (canonical_settleFields h) field (Dict.mem_of_mem_ofList hfield)⟩

theorem canonical_settleItems : ∀ {items : List Json}, EveryNumberItems JsonNumber.Fits items →
    CanonicalItems (settleItems items)
  | [], _ => trivial
  | _ :: _, h => ⟨canonical_settle h.1, canonical_settleItems h.2⟩

theorem canonical_settleFields : ∀ {fields : List (String × Json)},
    EveryNumberFields JsonNumber.Fits fields → CanonicalFields (settleFields fields)
  | [], _ => trivial
  | (_, _) :: _, h => ⟨canonical_settle h.1, canonical_settleFields h.2⟩

end

mutual

/-- A value is not deeper than it is written. -/
theorem depth_settle_le : ∀ json : Json, json.settle.depth ≤ json.depth
  | .number _ | .null | .bool _ | .string _ => le_rfl
  | .array items => Nat.succ_le_succ (depthItems_settleItems_le items)
  | .object fields => Nat.succ_le_succ (depthFields_le_iff.mpr fun field hfield =>
      depthFields_le_iff.mp (depthFields_settleFields_le fields) field (Dict.mem_of_mem_ofList hfield))

theorem depthItems_settleItems_le : ∀ items : List Json,
    depthItems (settleItems items) ≤ depthItems items
  | [] => le_rfl
  | item :: items => max_le_max (depth_settle_le item) (depthItems_settleItems_le items)

theorem depthFields_settleFields_le : ∀ fields : List (String × Json),
    depthFields (settleFields fields) ≤ depthFields fields
  | [] => le_rfl
  | (_, value) :: fields => max_le_max (depth_settle_le value) (depthFields_settleFields_le fields)

end

/-! ## The reader -/

/-- The numbers in a value can be read, and it is not deeper than there is room. -/
structure Within (room : ℕ) (json : Json) : Prop where
  fits : json.EveryNumber JsonNumber.Fits
  depth_le : json.depth ≤ room

theorem within_array (h : ∀ item ∈ items, Within room item) : Within (room + 1) (array items) where
  fits := everyNumberItems_iff.mpr fun item hitem => (h item hitem).fits
  depth_le := Nat.succ_le_succ (depthItems_le_iff.mpr fun item hitem => (h item hitem).depth_le)

theorem within_object (h : ∀ field ∈ fields, Within room field.2) :
    Within (room + 1) (object fields) where
  fits := everyNumberFields_iff.mpr fun field hfield => (h field hfield).fits
  depth_le := Nat.succ_le_succ (depthFields_le_iff.mpr fun field hfield => (h field hfield).depth_le)

/-- The values that are kept for what is being read. -/
def Reading.values : Reading → List Json
  | .item done => done
  | .value done _ => done.map Prod.snd

/-- What is being read leaves room for what stands around it. -/
def RoomLeft : List Reading → Prop
  | [] => True
  | reading :: outer => (∃ room, maxDepth = outer.length + 1 + room ∧
      ∀ value ∈ reading.values, Within room value) ∧ RoomLeft outer

/-- Every value that the reader has at hand leaves room for what stands around it. -/
def Step.Within : Step → Prop
  | .start _ outer => RoomLeft outer
  | .finish value _ outer => Json.Within (maxDepth - outer.length) value ∧ RoomLeft outer

variable {outer : List Reading} {step : Step}

theorem fits_of_value? {numeral : Numeral} {value : JsonNumber} (h : numeral.value? = some value) :
    value.Fits := by
  rintro n rfl
  unfold Numeral.value? at h
  split at h
  · rename_i hint
    cases h
    exact Numeral.fits_of_toInt? hint
  · obtain ⟨x, -, hfloat⟩ := Option.map_eq_some_iff.mp h
    cases hfloat

/-- The beginning of a value leaves room. -/
theorem startValue?_within {text : List Char} (houter : RoomLeft outer)
    (h : startValue? text outer = some step) : step.Within := by
  have hatom : ∀ {value : Json} {rest : List Char}, value.EveryNumber JsonNumber.Fits →
      value.depth = 0 → (Step.finish value rest outer).Within := fun hfits hdepth =>
    ⟨⟨hfits, hdepth ▸ Nat.zero_le _⟩, houter⟩
  -- there is room for an array or object that opens
  have hopen : outer.length < maxDepth → ∃ room, maxDepth = outer.length + 1 + room := fun hlt =>
    ⟨maxDepth - (outer.length + 1), by omega⟩
  have hempty : ∀ {value : Json} {rest : List Char}, outer.length < maxDepth →
      value.EveryNumber JsonNumber.Fits → value.depth = 1 →
        (Step.finish value rest outer).Within := fun hlt hfits hdepth =>
    ⟨⟨hfits, by omega⟩, houter⟩
  have hbegin : ∀ {reading : Reading} {rest : List Char}, outer.length < maxDepth →
      reading.values = [] → (Step.start rest (reading :: outer)).Within := by
    intro reading rest hlt hvalues
    obtain ⟨room, hroom⟩ := hopen hlt
    exact ⟨⟨room, hroom, by simp [hvalues]⟩, houter⟩
  unfold startValue? at h
  split at h
  · cases h; exact hatom trivial rfl
  · cases h; exact hatom trivial rfl
  · cases h; exact hatom trivial rfl
  · obtain ⟨read, -, rfl⟩ := Option.map_eq_some_iff.mp h
    exact hatom trivial rfl
  · split_ifs at h with hlt
    split at h
    · cases h; exact hempty hlt trivial rfl
    · cases h; exact hbegin hlt rfl
  · split_ifs at h with hlt
    split at h
    · cases h; exact hempty hlt trivial rfl
    · obtain ⟨read, -, rfl⟩ := Option.map_eq_some_iff.mp h
      exact hbegin hlt rfl
  · simp only [Option.bind_eq_bind, Option.bind_eq_some_iff] at h
    obtain ⟨⟨numeral, rest⟩, -, value, hvalue, heq⟩ := h
    cases heq
    exact hatom (fits_of_value? hvalue) rfl

/-- The end of a value leaves room. -/
theorem finishValue?_within {value : Json} {text : List Char} {reading : Reading}
    (hvalue : Within (maxDepth - (outer.length + 1)) value) (houter : RoomLeft (reading :: outer))
    (h : finishValue? value text reading outer = some step) : step.Within := by
  obtain ⟨⟨room, hroom, hvalues⟩, houter⟩ := houter
  obtain rfl : room = maxDepth - (outer.length + 1) := by omega
  have hspace : maxDepth - outer.length = maxDepth - (outer.length + 1) + 1 := by omega
  cases reading with
  | item done =>
    have hdone : ∀ item ∈ value :: done, Within (maxDepth - (outer.length + 1)) item :=
      List.forall_mem_cons.mpr ⟨hvalue, hvalues⟩
    simp only [finishValue?] at h
    split at h
    · cases h; exact ⟨⟨_, hroom, hdone⟩, houter⟩
    · cases h
      refine ⟨hspace ▸ within_array fun item hitem => ?_, houter⟩
      exact hdone item (List.mem_reverse.mp hitem)
    · contradiction
  | value done name =>
    have hdone : ∀ field ∈ (name, value) :: done,
        Within (maxDepth - (outer.length + 1)) field.2 :=
      List.forall_mem_cons.mpr ⟨hvalue, fun field hfield =>
        hvalues field.2 (List.mem_map_of_mem hfield)⟩
    simp only [finishValue?] at h
    split at h
    · obtain ⟨read, -, rfl⟩ := Option.map_eq_some_iff.mp h
      refine ⟨⟨_, hroom, fun other hother => ?_⟩, houter⟩
      obtain ⟨field, hfield, rfl⟩ := List.mem_map.mp hother
      exact hdone field hfield
    · cases h
      refine ⟨hspace ▸ within_object fun field hfield => ?_, houter⟩
      exact hdone field (List.mem_reverse.mp hfield)
    · contradiction

/-- A run gives a value that there is room for, if the values at hand leave room. -/
theorem run_within {n : ℕ} {v : Json} (hstep : step.Within) (h : run n step = some v) :
    Within maxDepth v := by
  induction n generalizing step with
  | zero => contradiction
  | succ n ih =>
    match step, hstep with
    | .start text outer, houter =>
      obtain ⟨next, hnext, hrun⟩ := Option.bind_eq_some_iff.mp h
      exact ih (startValue?_within houter hnext) hrun
    | .finish value text [], hvalue =>
      rw [run] at h
      split_ifs at h
      cases h
      exact hvalue.1
    | .finish value text (reading :: outer), hvalue =>
      obtain ⟨next, hnext, hrun⟩ := Option.bind_eq_some_iff.mp h
      exact ih (finishValue?_within hvalue.1 hvalue.2 hnext) hrun

theorem within_of_written? {text : List Char} {v : Json} (h : written? text = some v) :
    Within maxDepth v :=
  run_within (show (Step.start text []).Within from trivial) h

/-- A text is read as a canonical value. -/
theorem canonical_of_ofText? {text : List Char} {v : Json} (h : ofText? text = some v) :
    v.Canonical := by
  obtain ⟨json, hjson, rfl⟩ := Option.map_eq_some_iff.mp h
  exact canonical_settle (within_of_written? hjson).fits

end Json

end TableClient
