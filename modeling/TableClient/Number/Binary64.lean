/-!
# Finite 64-bit floating point numbers

A finite number of the binary64 format is a sign and an integer multiple of `2 ^ -1074`, the
smallest positive number of the format. Arithmetic is done on natural numbers, so every
statement about rounding is a statement about integers.

Results:
* `ofParts?_self`: a number is put together again from its parts.
-/

namespace TableClient

/-- The finite number `± significand * 2 ^ exponent * 2 ^ -1074`. The significand has 53 bits
    and its first bit is set unless the exponent is the least one, so each number other than
    zero has one form and zero has one for each sign. -/
structure Binary64 where
  negative : Bool
  significand : Nat
  exponent : Nat
  significand_lt : significand < 0x20000000000000
  exponent_le : exponent ≤ 2045
  normal : exponent = 0 ∨ 0x10000000000000 ≤ significand
deriving DecidableEq

namespace Binary64

/-- The number of units `2 ^ -1074` in one. -/
def scale : Nat := 1 <<< 1074

/-- The magnitude in units of `2 ^ -1074`. -/
def magnitude (x : Binary64) : Nat := x.significand <<< x.exponent

/-- Whether the number is zero, of either sign. -/
def isZero (x : Binary64) : Bool := x.significand == 0

/-- Zero with a sign. -/
def zero (negative : Bool) : Binary64 :=
  ⟨negative, 0, 0, by decide, by decide, .inl rfl⟩

/-- The number with the given parts, if they are those of a finite number. -/
def ofParts? (negative : Bool) (significand exponent : Nat) : Option Binary64 :=
  if hs : significand < 0x20000000000000 then
    if he : exponent ≤ 2045 then
      if hn : exponent = 0 ∨ 0x10000000000000 ≤ significand then
        some ⟨negative, significand, exponent, hs, he, hn⟩
      else none
    else none
  else none

/-- `num / den` rounded to the nearest integer, a half to the even one. -/
def roundDiv (num den : Nat) : Nat :=
  let quotient := num / den
  let rest := num % den
  if 2 * rest < den then quotient
  else if den < 2 * rest then quotient + 1
  else quotient + quotient % 2

/-- The number nearest to `num / den` (of two, the one whose significand is even), or `none`
    when that is beyond the largest finite number. -/
def ofRatio (negative : Bool) (num den : Nat) : Option Binary64 :=
  let scaled := num * scale
  let exponent := (scaled / den).log2 - 52
  let significand := roundDiv scaled (den <<< exponent)
  if significand = 0x20000000000000 then ofParts? negative 0x10000000000000 (exponent + 1)
  else ofParts? negative significand exponent

/-- The number of decimal digits of `n`; zero has none. -/
def digitCount (n : Nat) : Nat := if n = 0 then 0 else (Nat.toDigits 10 n).length

/-- The number nearest to `digits * 10 ^ exponent`. Beyond 400 digits before or behind the point
    the outcome is infinity or zero whatever the digits are. -/
def ofDecimal (negative : Bool) (digits : Nat) (exponent : Int) : Option Binary64 :=
  if digits = 0 then some (zero negative)
  else
    let size := digitCount digits + exponent
    if size > 400 then none
    else if size < -400 then some (zero negative)
    else if 0 ≤ exponent then ofRatio negative (digits * Nat.pow 10 exponent.toNat) 1
    else ofRatio negative digits (Nat.pow 10 (-exponent).toNat)

/-- The number nearest to an integer. -/
def ofInt (n : Int) : Option Binary64 := ofDecimal (decide (n < 0)) n.natAbs 0

/-- The number nearest to the product, if that is finite. -/
def mul (x y : Binary64) : Option Binary64 :=
  ofRatio (x.negative != y.negative) (x.magnitude * y.magnitude) (scale * scale)

/-- The number nearest to the quotient, if that is finite; `y` is not zero. -/
def div (x y : Binary64) : Option Binary64 :=
  ofRatio (x.negative != y.negative) x.magnitude y.magnitude

/-! ## Lemmas -/

theorem ofParts?_self (x : Binary64) :
    ofParts? x.negative x.significand x.exponent = some x := by
  rw [ofParts?, dif_pos x.significand_lt, dif_pos x.exponent_le, dif_pos x.normal]

end Binary64

end TableClient
