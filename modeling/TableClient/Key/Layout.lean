import TableClient.Attribute.Form
import TableClient.Json.Record

/-!
# Key layouts

Which attributes make up the key of a table or index, and in which role. A declared layout has
one hash attribute, listed first, and at most one range attribute behind it; a document of no
declared type is keyed by every attribute it has.

Results:
* `fault?_eq_none_iff`: the layouts that are accepted are one hash attribute, or one hash and
  one range attribute, with names that are not empty.
-/

namespace TableClient

/-- The role of a key attribute. -/
inductive KeyRole where
  /-- Selects the partition. -/
  | hash
  /-- Orders the items within a partition. -/
  | range
deriving DecidableEq

/-- The name of a role on the wire. -/
def KeyRole.name : KeyRole → String
  | .hash => "Hash"
  | .range => "Range"

instance : JsonForm KeyRole where
  toJson role := .string role.name
  readFrom? _ := readAlternative? [.hash, .range] KeyRole.name

/-- A key attribute: its name and its role. -/
structure KeyPart where
  name : String
  role : KeyRole
deriving DecidableEq

abbrev KeyPart.form : RecordForm KeyPart :=
  .madeOf (fun part => (part.name, part.role)) (fun (name, role) => { name, role })
    (.and (.required "name") <| .required "role")

instance : JsonForm KeyPart := KeyPart.form.jsonForm

/-- The key attributes of a table or index, in order. -/
structure KeyLayout where
  parts : List KeyPart
deriving DecidableEq

/-- Why a layout cannot be declared. -/
inductive LayoutFault where
  /-- Not exactly one hash attribute; holds their number. -/
  | hashCount (found : Nat)
  /-- More than one range attribute; holds their number. -/
  | rangeCount (found : Nat)
  /-- The first attribute is not the hash attribute. -/
  | hashNotFirst
  /-- An attribute without name. -/
  | emptyName
deriving DecidableEq

/-- The text of a fault. -/
def LayoutFault.message : LayoutFault → String
  | .hashCount found => "expected exactly one hash attribute, found " ++ toString found
  | .rangeCount found => "expected at most one range attribute, found " ++ toString found
  | .hashNotFirst => "hash attribute must be listed first"
  | .emptyName => "key attribute names must not be empty"

namespace KeyLayout

abbrev form : RecordForm KeyLayout := .madeOf parts mk (.required "attributes")

instance : JsonForm KeyLayout := form.jsonForm

/-- A key of one attribute. -/
def ofHash (hash : String) : KeyLayout := ⟨[⟨hash, .hash⟩]⟩

/-- A key of a hash and a range attribute. -/
def ofHashRange (hash range : String) : KeyLayout := ⟨[⟨hash, .hash⟩, ⟨range, .range⟩]⟩

/-- The key of a document with the given attributes: all of them, the first as hash attribute. -/
def ofDocument : List String → KeyLayout
  | [] => ⟨[]⟩
  | hash :: ranges => ⟨⟨hash, .hash⟩ :: ranges.map fun name => ⟨name, .range⟩⟩

/-- The names of the key attributes, in order. -/
def names (layout : KeyLayout) : List String := layout.parts.map KeyPart.name

/-- The first attribute in a role. -/
def nameOf? (layout : KeyLayout) (role : KeyRole) : Option String :=
  (layout.parts.find? fun part => part.role = role).map KeyPart.name

/-- The attributes in a role. -/
def count (layout : KeyLayout) (role : KeyRole) : Nat :=
  layout.parts.countP fun part => part.role = role

/-- The first fault of a layout, if it cannot be declared. -/
def fault? (layout : KeyLayout) : Option LayoutFault :=
  if layout.count .hash ≠ 1 then some (.hashCount (layout.count .hash))
  else if 1 < layout.count .range then some (.rangeCount (layout.count .range))
  else if (layout.parts.head?.map KeyPart.role) ≠ some .hash then some .hashNotFirst
  else if layout.parts.any fun part => part.name.isEmpty then some .emptyName
  else none

/-! ## Lemmas -/

@[simp] theorem names_ofDocument (names : List String) : (ofDocument names).names = names := by
  cases names with
  | nil => rfl
  | cons name names => simp [ofDocument, KeyLayout.names, Function.comp_def]

/-- The layouts that are accepted are one hash attribute, or one hash and one range attribute,
    with names that are not empty. -/
theorem fault?_eq_none_iff (layout : KeyLayout) :
    layout.fault? = none ↔
      (∃ hash, hash ≠ "" ∧ layout = ofHash hash) ∨
        ∃ hash range, hash ≠ "" ∧ range ≠ "" ∧ layout = ofHashRange hash range := by
  constructor
  · intro h
    obtain ⟨parts⟩ := layout
    match parts, h with
    | [], h => simp [fault?, count] at h
    | [⟨a, .range⟩], h => simp [fault?, count] at h
    | [⟨a, .hash⟩], h =>
      refine .inl ⟨a, ?_, rfl⟩
      rintro rfl
      simp [fault?, count] at h
    | ⟨a, .range⟩ :: ⟨b, _⟩ :: rest, h =>
      simp only [fault?] at h
      repeat' split at h
      all_goals simp_all
    | ⟨a, .hash⟩ :: ⟨b, .hash⟩ :: rest, h => simp [fault?, count] at h
    | [⟨a, .hash⟩, ⟨b, .range⟩], h =>
      refine .inr ⟨a, b, ?_, ?_, rfl⟩ <;> rintro rfl <;> simp [fault?, count] at h
    | ⟨a, .hash⟩ :: ⟨b, .range⟩ :: ⟨c, .hash⟩ :: rest, h => simp [fault?, count] at h
    | ⟨a, .hash⟩ :: ⟨b, .range⟩ :: ⟨c, .range⟩ :: rest, h =>
      simp only [fault?] at h
      repeat' split at h
      all_goals simp_all [count]
  · rintro (⟨hash, hh, rfl⟩ | ⟨hash, range, hh, hr, rfl⟩)
    · simp [fault?, count, ofHash, hh]
    · simp [fault?, count, ofHashRange, hh, hr]

end KeyLayout

end TableClient
