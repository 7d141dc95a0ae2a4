import TableClient.Json.Basic
import TableClient.Number.Stepwise

/-!
# Numbers in JSON texts

A number is a sign, digits without a zero in front, perhaps a point with digits behind it, and
perhaps an exponent. Without point and exponent it is an integer if that has 64 bits; `-0` is a
float, since no integer has its sign. Of the digits of a float only the leading ones that make up
a number of 64 bits are taken; the others tell how large it is and no more. The digits taken
become a float in rounded steps.

Results:
* `Numeral.fits_of_toInt?`: the integers that are read have 64 bits.
-/

namespace TableClient.Json

/-- A number as it is written. There are no places where there is no point. -/
structure Numeral where
  negative : Bool
  whole : List Char
  places : List Char
  exponent? : Option Int

namespace Numeral

/-! ## The grammar -/

/-- The integer part of a number: a zero alone or digits that do not start with one. -/
def readWhole? (text : List Char) : Option (List Char × List Char) :=
  match text with
  | '0' :: rest => some (['0'], rest)
  | _ =>
    let digits := text.takeWhile Char.isDigit
    if digits.isEmpty then none else some (digits, text.dropWhile Char.isDigit)

/-- The digits behind a point, if there is one; a point needs at least one. -/
def readPlaces? : List Char → Option (List Char × List Char)
  | '.' :: rest =>
    let digits := rest.takeWhile Char.isDigit
    if digits.isEmpty then none else some (digits, rest.dropWhile Char.isDigit)
  | text => some ([], text)

/-- The exponent, if there is one; it needs at least one digit. -/
def readExponent? : List Char → Option (Option Int × List Char)
  | c :: rest =>
    if c = 'e' ∨ c = 'E' then
      let (negative, rest) := readSign rest
      (readNat? (rest.takeWhile Char.isDigit)).map fun n =>
        (some (if negative then -(n : Int) else n), rest.dropWhile Char.isDigit)
    else some (none, c :: rest)
  | [] => some (none, [])

/-- A number and what follows it. -/
def read? (text : List Char) : Option (Numeral × List Char) := do
  let (negative, text) :=
    match text with
    | '-' :: rest => (true, rest)
    | text => (false, text)
  let (whole, text) ← readWhole? text
  let (places, text) ← readPlaces? text
  let (exponent?, text) ← readExponent? text
  return (⟨negative, whole, places, exponent?⟩, text)

/-! ## The value -/

/-- Puts digits behind a number while it stays one of 64 bits. Gives that number and the digits
    that are left over. -/
def takeDigits (n : Nat) : List Char → Nat × List Char
  | [] => (n, [])
  | c :: digits =>
    let next := 10 * n + (c.toNat - '0'.toNat)
    if next < 0x10000000000000000 then takeDigits next digits else (n, c :: digits)

/-- The integer that a number is: it has 64 bits, neither point nor exponent, and is not `-0`. -/
def toInt? (x : Numeral) : Option Int :=
  match takeDigits 0 x.whole, x.places, x.exponent? with
  | (n, []), [], none =>
    if x.negative ∧ n = 0 then none
    else (some (if x.negative then -(n : Int) else n)).filter JsonNumber.fits
  | _, _, _ => none

/-- The float that a number is, if it is finite. Each digit before the point that is not taken
    makes it ten times as large, each one behind the point that is taken makes it ten times as
    small. -/
def toBinary64? (x : Numeral) : Option Binary64 :=
  let (whole, left) := takeDigits 0 x.whole
  let (digits, unused) := takeDigits whole x.places
  let used := x.places.length - unused.length
  Binary64.ofDecimalStepwise x.negative digits (left.length - used + x.exponent?.getD 0)

/-- The value of a number. -/
def value? (x : Numeral) : Option JsonNumber :=
  match x.toInt? with
  | some n => some (.int n)
  | none => x.toBinary64?.map .float

/-! ## Lemmas -/

/-- The integers that are read have 64 bits. -/
theorem fits_of_toInt? {x : Numeral} {n : Int} (h : x.toInt? = some n) :
    JsonNumber.fits n = true := by
  unfold toInt? at h
  split at h
  · split at h
    · contradiction
    · exact (Option.filter_eq_some_iff.mp h).2
  · contradiction

end Numeral

end TableClient.Json
