import TableClient.Number.Binary64

/-!
# Floats from decimal numbers in rounded steps

The float of `± digits * 10 ^ exponent`, found in steps each of which is rounded: the digits
become a float, and this float is multiplied or divided by powers of ten that are floats
themselves. While the digits stay below `2 ^ 53` and the power below `10 ^ 23` both are exact, so
that only the last step rounds and the outcome is the nearest float. Beyond that it can be a
neighbour of the nearest float, which `Binary64.ofDecimal` gives.
-/

namespace TableClient.Binary64

/-- The exponent of the greatest power of ten that is a finite float. -/
def greatestPower : Nat := 308

/-- The float nearest to `10 ^ places`, if that is finite. -/
def tenTo (places : Nat) : Option Binary64 := ofDecimal false 1 places

/-- `x * 10 ^ places`, if that is finite. -/
def raise (x : Binary64) (places : Nat) : Option Binary64 :=
  if x.isZero then some x else (tenTo places).bind x.mul

/-- `x / 10 ^ places`, divided by `10 ^ 308` as long as there are more places than that. -/
def lower (x : Binary64) (places : Nat) : Option Binary64 :=
  if x.isZero then some x
  else if greatestPower < places then
    ((tenTo greatestPower).bind x.div).bind fun y => y.lower (places - greatestPower)
  else (tenTo places).bind x.div
termination_by places
decreasing_by simp only [greatestPower] at *; omega

/-- The float of `± digits * 10 ^ exponent`, if it is finite. -/
def ofDecimalStepwise (negative : Bool) (digits : Nat) (exponent : Int) : Option Binary64 :=
  (ofDecimal negative digits 0).bind fun x =>
    if 0 ≤ exponent then x.raise exponent.toNat else x.lower (-exponent).toNat

end TableClient.Binary64
