import Mathlib
import TableClient.Json.Record
import TableClient.Proofs.Json.Wire

/-!
# Records that are read back

A record is read back if each of its fields is: none is written twice, so that the object it is
written as has its fields, and each field is looked up under a name of its own.

Results:
* `recordFields?_object`, `depthFields_lt_of_recordFields?`: what a record is read from.
* instances of `WireRecord` for the fields of a record and what is put together of them.
* `WireForm.ofRecord`: a record of such fields is read back from its JSON form.
-/

namespace TableClient

/-! ## Fields of objects -/

/-- Fields that show, under some names, what there is to read of the entries. -/
def Shows (source : Source) (names : List String) (entries fields : List (String × Json)) : Prop :=
  ∀ name ∈ names, Dict.get? fields name = (Dict.get? entries name).map source.see

section Objects

variable {source : Source} {entries more fields : List (String × Json)} {name : String}

/-- The only field that is written is there to be read. -/
theorem get?_of_shows {json : Json} (h : Shows source [name] [(name, json)] fields) :
    Dict.get? fields name = some (source.see json) := by
  rw [h name List.mem_cons_self, Dict.get?_cons, if_pos rfl, Option.map_some]

theorem get?_eq_none_of_notMem (h : name ∉ Dict.keys fields) : Dict.get? fields name = none :=
  Option.eq_none_iff_forall_ne_some.mpr fun _ hget => h (Dict.mem_keys_of_get? hget)

/-- A name that is written on one side only is looked up there. -/
theorem get?_append_left (h : name ∉ Dict.keys more) :
    Dict.get? (entries ++ more) name = Dict.get? entries name := by
  rw [Dict.get?, List.lookup_append, ← Dict.get?, ← Dict.get?, get?_eq_none_of_notMem h,
    Option.or_none]

theorem get?_append_right (h : name ∉ Dict.keys entries) :
    Dict.get? (entries ++ more) name = Dict.get? more name := by
  rw [Dict.get?, List.lookup_append, ← Dict.get?, ← Dict.get?, get?_eq_none_of_notMem h,
    Option.none_or]

theorem plainFields_append :
    Json.PlainFields (entries ++ more) ↔ Json.PlainFields entries ∧ Json.PlainFields more := by
  simp only [Json.everyNumberFields_iff, List.forall_mem_append]

theorem depthFields_append :
    Json.depthFields (entries ++ more) = max (Json.depthFields entries) (Json.depthFields more) := by
  refine eq_of_forall_ge_iff fun room => ?_
  rw [max_le_iff]
  simp only [Json.depthFields_le_iff, List.forall_mem_append]

/-- A field that is read from what stands under its name is not much deeper than all fields are. -/
theorem depthFields_singleton_le {json value : Json} {height : ℕ}
    (hget : Dict.get? fields name = some json) (h : value.depth ≤ max json.depth height) :
    Json.depthFields [(name, value)] ≤ max (Json.depthFields fields) height := by
  have hfield : json.depth ≤ Json.depthFields fields :=
    Json.depthFields_le_iff.mp le_rfl _ (Dict.mem_of_get? hget)
  exact max_le (h.trans (max_le_max_right height hfield)) (Nat.zero_le _)

/-- An object whose fields have different names is taken for a record as it stands. -/
theorem recordFields?_object {names : List String} (h : (Dict.keys fields).Nodup) :
    (Json.object fields).recordFields? names = some fields := by
  refine if_pos (List.all_eq_true.mpr fun name _ => decide_eq_true ?_)
  have hcount := List.nodup_iff_count_le_one.mp h name
  rw [Dict.keys, List.count, List.countP_map] at hcount
  simpa only [Function.comp_def, beq_eq_decide] using hcount

/-- The fields that are taken for those of a record stand in the array or object. -/
theorem depthFields_lt_of_recordFields? {names : List String} {json : Json}
    (h : json.recordFields? names = some fields) : Json.depthFields fields + 1 ≤ json.depth := by
  cases json with
  | object all =>
    simp only [Json.recordFields?] at h
    split_ifs at h
    cases h
    exact le_rfl
  | array items =>
    simp only [Json.recordFields?] at h
    split_ifs at h
    cases h
    refine Nat.succ_le_succ (Json.depthFields_le_iff.mpr fun field hfield => ?_)
    exact Json.depthItems_le_iff.mp le_rfl _ (List.of_mem_zip hfield).2
  | _ => cases h

end Objects

/-! ## Records that are read back -/

/-- Records whose values are read back from the fields that they are written as. -/
class WireRecord {α : Type} (form : RecordForm α) where
  /-- The maps that a value holds are in the order of their names. -/
  Ordered : α → Prop
  /-- How deep the defaults are that may be written where nothing was read. -/
  height : ℕ
  keys_write : ∀ value, (Dict.keys (form.write value)).Sublist form.names
  plain_write : ∀ value, Json.PlainFields (form.write value)
  reads_back : ∀ {value : α} {source : Source} {fields : List (String × Json)}, Ordered value →
    form.names.Nodup → Shows source form.names (form.write value) fields →
      form.readFields? source fields = some value
  ordered_of_readFields? : ∀ {source : Source} {fields : List (String × Json)} {value : α},
    form.readFields? source fields = some value → Ordered value
  depth_le : ∀ {source : Source} {fields : List (String × Json)} {value : α},
    form.readFields? source fields = some value →
      Json.depthFields (form.write value) ≤ max (Json.depthFields fields) height

/-- Defaults whose maps are in the order of their names. -/
class OrderedDefault {α : Type} [JsonForm α] [WireForm α] (default : α) : Prop where
  ordered : Ordered default

section Defaults

variable {α : Type} [JsonForm α] [WireForm α]

instance [Mapless α] (default : α) : OrderedDefault default := ⟨ordered_of_mapless default⟩

instance [NeverNull α] : OrderedDefault (none : Option α) := ⟨fun _ h => nomatch h⟩

instance : OrderedDefault ([] : List α) := ⟨fun _ h => absurd h List.not_mem_nil⟩

instance : OrderedDefault ([] : Dict α) :=
  ⟨Dict.sorted_nil, fun _ h => absurd h List.not_mem_nil⟩

end Defaults

namespace RecordForm

/-! ## Fields -/

section Fields

variable {α : Type} [JsonForm α] {name : String} {source : Source} {fields : List (String × Json)}

/-- What is read for a field with a default is the reading of what stands there or the default. -/
theorem readFields?_withDefault {default value : α}
    (h : (withDefault name default).readFields? source fields = some value) :
    (∃ json, Dict.get? fields name = some json ∧ JsonForm.readFrom? source json = some value) ∨
      value = default := by
  simp only [withDefault] at h
  split at h
  · rename_i json hget
    exact .inl ⟨json, hget, h⟩
  · exact .inr (Option.some.inj h).symm

/-- A field that may be left out is not written deeper than one that is always written. -/
theorem depth_write_leftOut_le (content : Option α) :
    Json.depthFields ((leftOut name).write content) ≤
      Json.depthFields ((withDefault name none).write content) := by
  cases content with
  | none => exact Nat.zero_le _
  | some value => exact le_rfl

variable [WireForm α]

instance : WireRecord (required (α := α) name) where
  Ordered := Ordered
  height := WireForm.height α
  keys_write _ := List.Sublist.refl _
  plain_write value := ⟨plain_toJson value, trivial⟩
  reads_back h _ hshows :=
    Option.bind_eq_some_iff.mpr ⟨_, get?_of_shows hshows, reads_back h _⟩
  ordered_of_readFields? h := by
    obtain ⟨json, -, hread⟩ := Option.bind_eq_some_iff.mp h
    exact ordered_of_readFrom? hread
  depth_le h := by
    obtain ⟨json, hget, hread⟩ := Option.bind_eq_some_iff.mp h
    exact depthFields_singleton_le hget (WireForm.depth_le hread)

instance (default : α) [OrderedDefault default] : WireRecord (withDefault name default) where
  Ordered := Ordered
  height := max (WireForm.height α) (TableClient.toJson default).depth
  keys_write _ := List.Sublist.refl _
  plain_write value := ⟨plain_toJson value, trivial⟩
  reads_back h _ hshows := by
    simp only [withDefault, get?_of_shows hshows]
    exact reads_back h _
  ordered_of_readFields? h := by
    obtain ⟨json, -, hread⟩ | rfl := readFields?_withDefault h
    · exact ordered_of_readFrom? hread
    · exact OrderedDefault.ordered
  depth_le {source fields value} h := by
    obtain ⟨json, hget, hread⟩ | rfl := readFields?_withDefault h
    · exact depthFields_singleton_le hget
        ((WireForm.depth_le hread).trans (max_le_max_left _ (le_max_left _ _)))
    · exact max_le ((le_max_right _ _).trans (le_max_right _ _)) (Nat.zero_le _)

-- such a field is read as one whose default is to be absent
instance [NeverNull α] : WireRecord (leftOut (α := α) name) where
  Ordered := Ordered
  height := WireRecord.height (withDefault name (none : Option α))
  keys_write value := by
    cases value with
    | none => exact List.nil_sublist _
    | some content => exact List.Sublist.refl _
  plain_write value := by
    cases value with
    | none => trivial
    | some content => exact ⟨plain_toJson content, trivial⟩
  reads_back {value source fields} h _ hshows := by
    simp only [leftOut, withDefault] at hshows ⊢
    cases value with
    | none => rw [hshows name List.mem_cons_self, Dict.get?_nil, Option.map_none]
    | some content =>
      rw [get?_of_shows hshows]
      exact reads_back h source
  ordered_of_readFields? {source fields value} h :=
    have hdefault : (withDefault name none).readFields? source fields = some value := h
    WireRecord.ordered_of_readFields? hdefault
  depth_le {source fields value} h :=
    have hdefault : (withDefault name none).readFields? source fields = some value := h
    (depth_write_leftOut_le value).trans (WireRecord.depth_le hdefault)

end Fields

/-! ## Fields and others behind them -/

section Pairs

variable {α β : Type} {first : RecordForm α} {second : RecordForm β} {value : α × β}
  {source : Source} {fields : List (String × Json)}

theorem readFields?_and (h : (first.and second).readFields? source fields = some value) :
    first.readFields? source fields = some value.1 ∧
      second.readFields? source fields = some value.2 := by
  simp only [RecordForm.and, Option.bind_eq_bind, Option.bind_eq_some_iff] at h
  obtain ⟨left, hleft, right, hright, heq⟩ := h
  cases heq
  exact ⟨hleft, hright⟩

/-- What shows all fields shows those of each side, because no name is on both. -/
theorem shows_left [WireRecord second] (hnames : (first.and second).names.Nodup)
    (h : Shows source (first.and second).names ((first.and second).write value) fields) :
    Shows source first.names (first.write value.1) fields := by
  obtain ⟨-, -, hdisjoint⟩ := List.nodup_append.mp hnames
  intro name hname
  have hother : name ∉ Dict.keys (second.write value.2) := fun hmem =>
    hdisjoint name hname name ((WireRecord.keys_write value.2).subset hmem) rfl
  rw [h name (List.mem_append_left _ hname), RecordForm.and, get?_append_left hother]

theorem shows_right [WireRecord first] (hnames : (first.and second).names.Nodup)
    (h : Shows source (first.and second).names ((first.and second).write value) fields) :
    Shows source second.names (second.write value.2) fields := by
  obtain ⟨-, -, hdisjoint⟩ := List.nodup_append.mp hnames
  intro name hname
  have hother : name ∉ Dict.keys (first.write value.1) := fun hmem =>
    hdisjoint name ((WireRecord.keys_write value.1).subset hmem) name hname rfl
  rw [h name (List.mem_append_right _ hname), RecordForm.and, get?_append_right hother]

instance [WireRecord first] [WireRecord second] : WireRecord (first.and second) where
  Ordered value := WireRecord.Ordered first value.1 ∧ WireRecord.Ordered second value.2
  height := max (WireRecord.height first) (WireRecord.height second)
  keys_write value := by
    simp only [RecordForm.and, Dict.keys, List.map_append]
    exact (WireRecord.keys_write value.1).append (WireRecord.keys_write value.2)
  plain_write value :=
    plainFields_append.mpr ⟨WireRecord.plain_write value.1, WireRecord.plain_write value.2⟩
  reads_back {value source fields} h hnames hshows := by
    obtain ⟨hfirst, hsecond, -⟩ := List.nodup_append.mp hnames
    simp only [RecordForm.and, WireRecord.reads_back h.1 hfirst (shows_left hnames hshows),
      WireRecord.reads_back h.2 hsecond (shows_right hnames hshows)]
    rfl
  ordered_of_readFields? h :=
    ⟨WireRecord.ordered_of_readFields? (readFields?_and h).1,
      WireRecord.ordered_of_readFields? (readFields?_and h).2⟩
  depth_le {source fields value} h := by
    have hleft := WireRecord.depth_le (readFields?_and h).1
    have hright := WireRecord.depth_le (readFields?_and h).2
    rw [RecordForm.and, depthFields_append]
    exact max_le (hleft.trans (max_le_max_left _ (le_max_left _ _)))
      (hright.trans (max_le_max_left _ (le_max_right _ _)))

end Pairs

/-! ## Records -/

section Records

variable {α β : Type} {form : RecordForm α} {source : Source} {json : Json}

/-- The content of an alternative is read as the record itself is. -/
theorem readFrom?_of_readContent? {value : α} (h : form.readContent? source json = some value) :
    form.readFrom? source json = some value := by
  cases source <;> cases json <;> first | exact h | contradiction

theorem readFrom?_madeOf (parts : β → α) (make : α → β) :
    (madeOf parts make form).readFrom? source json = (form.readFrom? source json).map make := by
  simp only [RecordForm.readFrom?, madeOf, Option.map_bind, Function.comp_def]

/-- What a record is made into is read as what the record is read as. -/
theorem readFrom?_of_madeOf {parts : β → α} {make : α → β}
    (hparts : ∀ value, parts (make value) = value) {value : β}
    (h : (madeOf parts make form).readFrom? source json = some value) :
    form.readFrom? source json = some (parts value) := by
  rw [readFrom?_madeOf, Option.map_eq_some_iff] at h
  obtain ⟨content, hcontent, rfl⟩ := h
  rw [hcontent, hparts]

variable [WireRecord form] {value : α}

/-- There is an object to read, and in it what there is to read of each field. -/
theorem exists_see_toJson (source : Source) (hnames : form.names.Nodup) (value : α) :
    ∃ fields, source.see (form.toJson value) = .object fields ∧ (Dict.keys fields).Nodup ∧
      ∀ name, Dict.get? fields name = (Dict.get? (form.write value) name).map source.see :=
  Source.exists_see_object (hnames.sublist (WireRecord.keys_write value))

/-- A record is read back from its JSON form. -/
theorem readFrom?_see (hnames : form.names.Nodup) (h : WireRecord.Ordered form value) :
    form.readFrom? source (source.see (form.toJson value)) = some value := by
  obtain ⟨fields, hsee, hnodup, hget⟩ := exists_see_toJson source hnames value
  rw [hsee, RecordForm.readFrom?, recordFields?_object hnodup, Option.bind_some]
  exact WireRecord.reads_back h hnames fun name _ => hget name

theorem readContent?_see (hnames : form.names.Nodup) (h : WireRecord.Ordered form value) :
    form.readContent? source (source.see (form.toJson value)) = some value := by
  obtain ⟨fields, hsee, -⟩ := exists_see_toJson source hnames value
  have hread : form.readFrom? source (source.see (form.toJson value)) = some value :=
    readFrom?_see hnames h
  rw [hsee] at hread ⊢
  cases source <;> exact hread

theorem ordered_of_readFrom? (h : form.readFrom? source json = some value) :
    WireRecord.Ordered form value := by
  obtain ⟨fields, -, hread⟩ := Option.bind_eq_some_iff.mp h
  exact WireRecord.ordered_of_readFields? hread

theorem depth_toJson_le (h : form.readFrom? source json = some value) :
    (form.toJson value).depth ≤ max json.depth (outerHeight (WireRecord.height form)) := by
  obtain ⟨fields, hfields, hread⟩ := Option.bind_eq_some_iff.mp h
  have hdepth := succ_le_max_outerHeight (WireRecord.depth_le hread)
  have hroom := depthFields_lt_of_recordFields? hfields
  exact hdepth.trans (max_le_max_right _ hroom)

end Records

end RecordForm

/-- A type whose values are made of the fields of a record is read back from its JSON form. -/
abbrev WireForm.ofRecord {α β : Type} {parts : β → α} {make : α → β} {form : RecordForm α}
    [WireRecord form] (hmake : ∀ value, make (parts value) = value)
    (hparts : ∀ value, parts (make value) = value) (hnames : form.names.Nodup) :
    @WireForm β (RecordForm.madeOf parts make form).jsonForm :=
  letI := (RecordForm.madeOf parts make form).jsonForm
  { Ordered value := WireRecord.Ordered form (parts value)
    height := outerHeight (WireRecord.height form)
    plain_toJson value := (WireRecord.plain_write (parts value) : Json.PlainFields (form.write _))
    reads_back {value} h source := by
      refine (RecordForm.readFrom?_madeOf parts make).trans ?_
      change (form.readFrom? source (source.see (form.toJson (parts value)))).map make = some value
      rw [RecordForm.readFrom?_see hnames h, Option.map_some, hmake]
    ordered_of_readFrom? h :=
      RecordForm.ordered_of_readFrom? (RecordForm.readFrom?_of_madeOf hparts h)
    depth_le h := RecordForm.depth_toJson_le (RecordForm.readFrom?_of_madeOf hparts h) }

end TableClient
