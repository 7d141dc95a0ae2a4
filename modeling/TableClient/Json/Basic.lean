import TableClient.Dict
import TableClient.Number.Decimal

/-!
# JSON values

JSON values whose numbers are either integers or finite floats: `1` and `1.0` are different
values. An object has each name once, in the order of the names, except in a value that is taken as
it is written: there it has the fields as they stand, and `Json.settle` gives the value that is
meant.

Results:
* equality of values is decidable.
* `Json.Canonical` describes the values that reading a text can give.
-/

namespace TableClient

/-- A JSON number. -/
inductive JsonNumber where
  | int (value : Int)
  | float (value : Binary64)
deriving DecidableEq

/-- A JSON value. -/
inductive Json where
  | null
  | bool (value : Bool)
  | number (value : JsonNumber)
  | string (value : String)
  | array (items : List Json)
  | object (fields : List (String × Json))

namespace JsonNumber

/-- Whether an integer is one of 64 bits, signed or unsigned; all others are floats. -/
def fits (n : Int) : Bool := -0x8000000000000000 ≤ n && n < 0x10000000000000000

/-- The decimal text of a number. -/
def toText : JsonNumber → String
  | .int n => toString n
  | .float x => String.ofList x.toText

/-- The number that a decimal text denotes: an integer if it is one of 64 bits, else the nearest
    float if that is finite. -/
def ofText? (text : String) : Option JsonNumber :=
  match readInt? text.toList with
  | some n => if fits n then some (.int n) else (Binary64.ofText? text.toList).map .float
  | none => (Binary64.ofText? text.toList).map .float

end JsonNumber

namespace Json

/-- An integer as a JSON value. -/
def int (n : Int) : Json := .number (.int n)

/-- A natural number as a JSON value. -/
def nat (n : Nat) : Json := int n

/-- The object with the given fields, in any order. -/
def ofFields (fields : List (String × Json)) : Json := .object (Dict.ofList fields)

mutual

/-- The value that is meant by one that is taken as it is written: of the fields of an object that
    have one name the last stays. -/
def settle : Json → Json
  | .array items => .array (settleItems items)
  | .object fields => .object (Dict.ofList (settleFields fields))
  | json => json

/-- The values that are meant by the items of an array. -/
def settleItems : List Json → List Json
  | [] => []
  | item :: items => settle item :: settleItems items

/-- The values that are meant by those of the fields of an object. -/
def settleFields : List (String × Json) → List (String × Json)
  | [] => []
  | (name, value) :: fields => (name, settle value) :: settleFields fields

end

/-- The word for the kind of a value. -/
def kind : Json → String
  | .null => "null"
  | .bool _ => "bool"
  | .number _ => "number"
  | .string _ => "string"
  | .array _ => "array"
  | .object _ => "object"

/-- The value of a field of an object. -/
def field? : Json → String → Option Json
  | .object fields, name => Dict.get? fields name
  | _, _ => none

/-! ## Equality -/

mutual

/-- Whether two values are the same. -/
def same : Json → Json → Bool
  | .null, .null => true
  | .bool a, .bool b => a == b
  | .number a, .number b => a == b
  | .string a, .string b => a == b
  | .array a, .array b => sameItems a b
  | .object a, .object b => sameFields a b
  | _, _ => false

/-- Whether two lists of values are the same. -/
def sameItems : List Json → List Json → Bool
  | [], [] => true
  | x :: xs, y :: ys => same x y && sameItems xs ys
  | _, _ => false

/-- Whether two lists of fields are the same. -/
def sameFields : List (String × Json) → List (String × Json) → Bool
  | [], [] => true
  | (k, x) :: xs, (l, y) :: ys => k == l && same x y && sameFields xs ys
  | _, _ => false

end

mutual

theorem same_iff : ∀ a b : Json, same a b = true ↔ a = b
  | .null, b | .bool _, b | .number _, b | .string _, b => by cases b <;> simp [same]
  | .array xs, b => by cases b <;> simp [same, sameItems_iff xs]
  | .object xs, b => by cases b <;> simp [same, sameFields_iff xs]

theorem sameItems_iff : ∀ a b : List Json, sameItems a b = true ↔ a = b
  | [], b => by cases b <;> simp [sameItems]
  | x :: xs, b => by cases b <;> simp [sameItems, same_iff x, sameItems_iff xs]

theorem sameFields_iff : ∀ a b : List (String × Json), sameFields a b = true ↔ a = b
  | [], b => by cases b <;> simp [sameFields]
  | (k, x) :: xs, b => by
    cases b <;> simp [sameFields, same_iff x, sameFields_iff xs, Prod.ext_iff, and_assoc]

end

instance : DecidableEq Json := fun a b => decidable_of_iff _ (same_iff a b)

/-! ## Canonical values -/

mutual

/-- The values that reading a text can give: integers have 64 bits and the fields of an object
    stand in strictly increasing order of their names. -/
def Canonical : Json → Prop
  | .number (.int n) => JsonNumber.fits n = true
  | .array items => CanonicalItems items
  | .object fields => Dict.Sorted fields ∧ CanonicalFields fields
  | _ => True

/-- Every item is canonical. -/
def CanonicalItems : List Json → Prop
  | [] => True
  | item :: items => Canonical item ∧ CanonicalItems items

/-- The value of every field is canonical. -/
def CanonicalFields : List (String × Json) → Prop
  | [] => True
  | (_, value) :: fields => Canonical value ∧ CanonicalFields fields

end

end Json

end TableClient
