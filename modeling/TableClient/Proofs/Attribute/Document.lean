import Mathlib
import TableClient.Attribute.Document
import TableClient.Proofs.Number.Spelling

/-!
# Documents that are stored and taken back

A document is taken back as it was stored: the attribute of a document, at any depth, stands for
this document again. Only the texts of numbers could be misread, and a number is read from its own
text.

Results:
* `toDocument_ofDocument`: a document is taken back from the attribute that it is stored as.
* `stored_document_is_taken_back`: so is an object from the item that it is stored as.
-/

namespace TableClient

namespace Attribute

/-- The text of a number that a document can have denotes this number. -/
theorem readNumber_toText {n : JsonNumber} (h : (Json.number n).Canonical) :
    readNumber n.toText = .ok (.number n) := by
  rw [readNumber, JsonNumber.ofText?_toText]
  rintro i rfl
  exact h

mutual

/-- A document is taken back from the attribute that it is stored as. -/
theorem toDocument_ofDocument :
    ∀ {v : Json}, v.Canonical → (ofDocument v).toDocument = .ok v
  | .null, _ | .bool _, _ | .string _, _ => by rw [ofDocument, toDocument]
  | .number n, h => by rw [ofDocument, toDocument, readNumber_toText h]
  | .array items, h => by
    rw [Json.Canonical] at h
    rw [ofDocument, toDocument, toItems_ofItems h]
    rfl
  | .object fields, h => by
    rw [Json.Canonical] at h
    rw [ofDocument, toDocument, toFields_ofFields h.2]
    rfl

theorem toItems_ofItems :
    ∀ {items : List Json}, Json.CanonicalItems items → toItems (ofItems items) = .ok items
  | [], _ => rfl
  | item :: items, h => by
    rw [Json.CanonicalItems] at h
    rw [ofItems, toItems, toDocument_ofDocument h.1, toItems_ofItems h.2]
    rfl

theorem toFields_ofFields : ∀ {fields : List (String × Json)}, Json.CanonicalFields fields →
    toFields (ofFields fields) = .ok fields
  | [], _ => rfl
  | (name, value) :: fields, h => by
    rw [Json.CanonicalFields] at h
    rw [ofFields, toFields, toDocument_ofDocument h.1, toFields_ofFields h.2]
    rfl

end

end Attribute

/-- A document is taken back as it was stored, whether it is stored as an attribute or, being an
    object, as an item. -/
theorem stored_document_is_taken_back {v : Json} (h : v.Canonical) :
    (Attribute.ofDocument v).toDocument = .ok v ∧
      ∀ fields, v = .object fields →
        ∃ item, AttributeMap.ofDocument v = .ok item ∧ item.toDocument = .ok v := by
  refine ⟨Attribute.toDocument_ofDocument h, ?_⟩
  rintro fields rfl
  rw [Json.Canonical] at h
  refine ⟨Attribute.ofFields fields, rfl, ?_⟩
  rw [AttributeMap.toDocument, Attribute.toFields_ofFields h.2]
  rfl

/-- A document with numbers of each kind: the least and the greatest integers, `-0.0` and the
    least positive float. -/
def numbersDocument : Json :=
  .object
    [("floats", .array [.number (.float (Binary64.zero true)),
      .number (.float { Binary64.zero false with
        significand := 1, significand_lt := by decide, normal := .inl rfl })]),
     ("integers", .object [("greatest", .int 0xFFFFFFFFFFFFFFFF),
      ("least", .int (-0x8000000000000000))]),
     ("others", .array [.null, .bool true, .string "1"])]

theorem numbersDocument_is_taken_back : numbersDocument.Canonical ∧
    (Attribute.ofDocument numbersDocument).toDocument = .ok numbersDocument ∧
    ∃ item, AttributeMap.ofDocument numbersDocument = .ok item ∧
      item.toDocument = .ok numbersDocument := by
  have hcanonical : numbersDocument.Canonical := by
    simp only [numbersDocument, Json.Canonical, Json.CanonicalItems, Json.CanonicalFields, Json.int,
      Dict.Sorted]
    decide
  obtain ⟨hvalue, hitem⟩ := stored_document_is_taken_back hcanonical
  exact ⟨hcanonical, hvalue, hitem _ rfl⟩

end TableClient
