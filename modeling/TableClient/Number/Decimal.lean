import TableClient.Number.Binary64

/-!
# Decimal texts of numbers

Reading and writing of decimal texts. A numeral is an optional sign, digits with an optional
point (at least one digit in all), and an optional exponent. A float is written with the fewest
digits that read back as the same float, the nearest such to its value, and of two equally near
the one whose last digit is even.

Results:
* `withDigits?_reads_back`: the digits that `shortest` finds before giving up read back.
-/

namespace TableClient

/-! ## Reading -/

/-- The value of a decimal digit. -/
def digitValue? (c : Char) : Option Nat :=
  if '0' ≤ c ∧ c ≤ '9' then some (c.toNat - '0'.toNat) else none

/-- The natural number that a nonempty text of digits denotes. -/
def readNat? (text : List Char) : Option Nat :=
  if text.isEmpty then none
  else text.foldl (fun acc c => do return 10 * (← acc) + (← digitValue? c)) (some 0)

/-- The leading sign of a text, `true` for minus, and what follows it. -/
def readSign : List Char → Bool × List Char
  | '-' :: text => (true, text)
  | '+' :: text => (false, text)
  | text => (false, text)

/-- The integer that an optional sign and digits denote. -/
def readInt? (text : List Char) : Option Int :=
  let (negative, digits) := readSign text
  (readNat? digits).map fun n => if negative then -(n : Int) else n

/-- A decimal number `± digits * 10 ^ exponent`. -/
structure Decimal where
  negative : Bool := false
  digits : Nat
  exponent : Int
deriving DecidableEq

namespace Decimal

/-- The exponent that a text denotes: nothing, or `e` or `E` and an integer. -/
def readExponent? : List Char → Option Int
  | [] => some 0
  | c :: text => if c = 'e' ∨ c = 'E' then readInt? text else none

/-- The number that a numeral denotes. -/
def ofText? (text : List Char) : Option Decimal :=
  let (negative, text) := readSign text
  let whole := text.takeWhile Char.isDigit
  let text := text.dropWhile Char.isDigit
  let (places, text) :=
    match text with
    | '.' :: rest => (rest.takeWhile Char.isDigit, rest.dropWhile Char.isDigit)
    | rest => ([], rest)
  match readNat? (whole ++ places), readExponent? text with
  | some digits, some exponent => some ⟨negative, digits, exponent - places.length⟩
  | _, _ => none

/-- The float nearest to the number, if it is finite. -/
def toBinary64? (d : Decimal) : Option Binary64 :=
  Binary64.ofDecimal d.negative d.digits d.exponent

end Decimal

/-- The finite float that a numeral denotes after rounding. -/
def Binary64.ofText? (text : List Char) : Option Binary64 :=
  (Decimal.ofText? text).bind Decimal.toBinary64?

/-! ## Shortest digits -/

namespace Binary64

/-- The exponent of the leading decimal digit of `num / den`, for positive `num`. -/
def leadingExponent (num den : Nat) : Int :=
  if den ≤ num then (digitCount (num / den) : Int) - 1
  else -(digitCount ((den + num - 1) / num - 1) : Int)

/-- The two decimal numbers of `count` digits next to `num / den`, below (or equal) and above, the
    nearer one first; of two equally near, the one whose last digit is even. -/
def neighbours (negative : Bool) (num den count : Nat) : List Decimal :=
  let exponent := leadingExponent num den - count + 1
  let num := if exponent < 0 then num * Nat.pow 10 (-exponent).toNat else num
  let den := if exponent < 0 then den else den * Nat.pow 10 exponent.toNat
  let below : Decimal := ⟨negative, num / den, exponent⟩
  let above : Decimal := ⟨negative, num / den + 1, exponent⟩
  if roundDiv num den = num / den then [below, above] else [above, below]

/-- The preferred decimal number of `count` digits among those that read back as `x`. -/
def withDigits? (x : Binary64) (count : Nat) : Option Decimal :=
  (neighbours x.negative x.magnitude scale count).find? fun d => d.toBinary64? == some x

/-- The exact decimal expansion. -/
def expansion (x : Binary64) : Decimal := ⟨x.negative, x.magnitude * Nat.pow 5 1074, -1074⟩

/-- The decimal number with the fewest digits, at most seventeen, that reads back as `x`; the
    exact expansion stands behind them and is not needed by any number of the format. -/
def shortest (x : Binary64) : Decimal :=
  if x.isZero then ⟨x.negative, 0, 0⟩
  else ((List.range' 1 17).findSome? x.withDigits?).getD x.expansion

/-- The digits that `shortest` finds before giving up read back. -/
theorem withDigits?_reads_back {x : Binary64} {count : Nat} {d : Decimal}
    (h : x.withDigits? count = some d) : d.toBinary64? = some x := by
  simpa using List.find?_some h

end Binary64

/-! ## Writing -/

/-- Which decimal exponents are written with a point alone. -/
structure FloatLayout where
  /-- The least exponent of a leading digit that is written without an exponent part. -/
  plainFrom : Int
  /-- The first exponent that is written with an exponent part again. -/
  plainBelow : Int

/-- Floats from `0.00001` up to below `10 ^ 16` are written with a point alone. -/
def FloatLayout.standard : FloatLayout := ⟨-5, 16⟩

namespace Decimal

/-- The digits without the zeros at their end, and the exponent of the leading one. -/
def leading (d : Decimal) : List Char × Int :=
  let digits := Nat.toDigits 10 d.digits
  let kept := (digits.reverse.dropWhile (· == '0')).reverse
  (if kept.isEmpty then ['0'] else kept, d.exponent + digits.length - 1)

/-- An exponent with its sign, which is always written. -/
def exponentText (e : Int) : List Char :=
  (if e < 0 then '-' else '+') :: Nat.toDigits 10 e.natAbs

/-- Writes a number in the given layout: with a point alone (and a zero behind it when there are
    no other places), or as a leading digit, the others behind a point, and an exponent. -/
def layOut (layout : FloatLayout) (d : Decimal) : List Char :=
  let (digits, exponent) := if d.digits = 0 then (['0'], 0) else d.leading
  let sign := if d.negative then ['-'] else []
  let body :=
    if layout.plainFrom ≤ exponent ∧ exponent < layout.plainBelow then
      if exponent < 0 then
        '0' :: '.' :: List.replicate (-exponent - 1).toNat '0' ++ digits
      else
        let whole := exponent.toNat + 1
        let padded := digits ++ List.replicate (whole - digits.length) '0'
        let places := padded.drop whole
        padded.take whole ++ '.' :: (if places.isEmpty then ['0'] else places)
    else
      let places := digits.drop 1
      digits.take 1 ++ (if places.isEmpty then [] else '.' :: places) ++
        'e' :: exponentText exponent
  sign ++ body

end Decimal

/-- The text of a float. -/
def Binary64.toText (x : Binary64) : List Char := x.shortest.layOut .standard

end TableClient
