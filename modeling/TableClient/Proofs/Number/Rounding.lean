import Mathlib
import TableClient.Number.Decimal

/-!
# Rounding to floats

A quotient is rounded in the same way however it is expanded, so that the float nearest to a decimal
number does not depend on how many zeros stand at the end of its digits. A float is the nearest
one to itself.

Results:
* `ofRatio_mul`: a quotient that is expanded rounds to the same float.
* `ofRatio_of_magnitude`: a quotient that is the value of a float rounds to this float.
* `Decimal.toBinary64?_shift`: zeros at the end of the digits do not count.
* `shortest_reads_back`: the digits that are written for a float read back as this float.
-/

namespace TableClient

namespace Binary64

/-! ## Quotients -/

theorem roundDiv_mul {c : ℕ} (hc : 0 < c) (num den : ℕ) :
    roundDiv (num * c) (den * c) = roundDiv num den := by
  have hlt : ∀ a b : ℕ, a * c < b * c ↔ a < b := fun a b => Nat.mul_lt_mul_right hc
  rw [roundDiv, roundDiv, Nat.mul_div_mul_right num den hc, Nat.mul_mod_mul_right]
  simp only [← Nat.mul_assoc, hlt]

theorem roundDiv_mul_self {den : ℕ} (hden : 0 < den) (quotient : ℕ) :
    roundDiv (quotient * den) den = quotient := by
  simp [roundDiv, Nat.mul_div_cancel _ hden, hden]

/-- A quotient that is expanded rounds to the same float. -/
theorem ofRatio_mul {c : ℕ} (hc : 0 < c) (negative : Bool) (num den : ℕ) :
    ofRatio negative (num * c) (den * c) = ofRatio negative num den := by
  have hscaled : num * c * scale = num * scale * c := Nat.mul_right_comm num c scale
  have hden : ∀ places : ℕ, (den * c) <<< places = den <<< places * c := fun places => by
    rw [Nat.shiftLeft_eq, Nat.shiftLeft_eq, Nat.mul_right_comm]
  simp only [ofRatio, hscaled, Nat.mul_div_mul_right _ _ hc, hden, roundDiv_mul hc]

/-- The exponent of a float is read off its magnitude. -/
theorem log2_magnitude (x : Binary64) : x.magnitude.log2 - 52 = x.exponent := by
  rcases x.normal with hzero | hfirst
  · have hlt := x.significand_lt
    rw [magnitude, hzero, Nat.shiftLeft_zero]
    by_cases hne : x.significand = 0
    · rw [hne, Nat.log2_zero]
    · have : x.significand.log2 < 53 := (Nat.log2_lt hne).mpr (by simpa using hlt)
      omega
  · have hpos : 0 < 2 ^ x.exponent := Nat.two_pow_pos _
    have hlog : x.magnitude.log2 = 52 + x.exponent := by
      rw [magnitude, Nat.shiftLeft_eq, Nat.log2_eq_iff (by positivity)]
      constructor
      · rw [pow_add]
        exact Nat.mul_le_mul_right _ (by simpa using hfirst)
      · rw [Nat.add_right_comm, pow_add]
        exact (Nat.mul_lt_mul_right hpos).mpr (by simpa using x.significand_lt)
    omega

/-- A quotient that is the value of a float rounds to this float. -/
theorem ofRatio_of_magnitude (x : Binary64) {num den : ℕ} (hden : 0 < den)
    (h : num * scale = x.magnitude * den) : ofRatio x.negative num den = some x := by
  have hsignificand : roundDiv (x.magnitude * den) (den <<< x.exponent) = x.significand := by
    rw [magnitude, Nat.shiftLeft_eq, Nat.shiftLeft_eq, Nat.mul_assoc, Nat.mul_comm den]
    exact roundDiv_mul_self (by positivity) _
  have hne : x.significand ≠ 0x20000000000000 := x.significand_lt.ne
  simp only [ofRatio, h, Nat.mul_div_cancel _ hden, log2_magnitude, hsignificand, hne, if_false]
  exact ofParts?_self x

theorem eq_zero_of_isZero {x : Binary64} (h : x.isZero = true) : x = zero x.negative := by
  obtain ⟨negative, significand, exponent, hlt, hle, hnormal⟩ := x
  obtain rfl : significand = 0 := by simpa [isZero] using h
  obtain rfl : exponent = 0 := by omega
  rfl

/-! ## Decimal numbers -/

theorem digitCount_le_iff {n k : ℕ} : digitCount n ≤ k ↔ n < 10 ^ k := by
  by_cases hn : n = 0
  · simp [digitCount, hn]
  · rw [digitCount, if_neg hn]
    by_cases hk : k = 0
    · have hpos : 0 < (Nat.toDigits 10 n).length := Nat.length_toDigits_pos
      subst hk
      omega
    · exact Nat.length_toDigits_le_iff (by decide) (Nat.pos_of_ne_zero hk)

theorem digitCount_mul_pow {n : ℕ} (hn : n ≠ 0) (places : ℕ) :
    digitCount (n * 10 ^ places) = digitCount n + places := by
  refine eq_of_forall_ge_iff fun k => ?_
  rw [digitCount_le_iff]
  by_cases hk : places ≤ k
  · obtain ⟨rest, rfl⟩ := Nat.exists_eq_add_of_le' hk
    rw [pow_add, Nat.mul_lt_mul_right (by positivity), ← digitCount_le_iff]
    omega
  · have hpow : 10 ^ k ≤ 10 ^ places := Nat.pow_le_pow_right (by decide) (by omega)
    have hmul : 1 * 10 ^ places ≤ n * 10 ^ places :=
      Nat.mul_le_mul_right _ (Nat.one_le_iff_ne_zero.mpr hn)
    omega

/-- The float nearest to a decimal number that is neither huge nor tiny is that of a quotient. -/
theorem ofDecimal_eq_ofRatio {digits : ℕ} {exponent : ℤ} (hdigits : digits ≠ 0)
    (hbelow : (digitCount digits : ℤ) + exponent ≤ 400)
    (habove : -400 ≤ (digitCount digits : ℤ) + exponent) (negative : Bool) :
    ofDecimal negative digits exponent =
      ofRatio negative (digits * 10 ^ exponent.toNat) (10 ^ (-exponent).toNat) := by
  have hpow : ∀ n : ℕ, Nat.pow 10 n = 10 ^ n := fun _ => rfl
  rw [ofDecimal, if_neg hdigits]
  simp only [hpow]
  rw [if_neg (by omega), if_neg (by omega)]
  split_ifs with hexponent
  · rw [show (-exponent).toNat = 0 by omega, pow_zero]
  · rw [show exponent.toNat = 0 by omega, pow_zero, mul_one]

/-- Zeros at the end of the digits do not count. -/
theorem ofDecimal_shift (negative : Bool) (digits places : ℕ) (exponent : ℤ) :
    ofDecimal negative (digits * 10 ^ places) (exponent - places) =
      ofDecimal negative digits exponent := by
  by_cases hdigits : digits = 0
  · simp [ofDecimal, hdigits]
  · have hshifted : digits * 10 ^ places ≠ 0 := by positivity
    have hsize : (digitCount (digits * 10 ^ places) : ℤ) + (exponent - places) =
        digitCount digits + exponent := by
      rw [digitCount_mul_pow hdigits]
      push_cast
      omega
    by_cases hbelow : (digitCount digits : ℤ) + exponent ≤ 400
    · by_cases habove : -400 ≤ (digitCount digits : ℤ) + exponent
      · rw [ofDecimal_eq_ofRatio hdigits hbelow habove,
          ofDecimal_eq_ofRatio hshifted (hsize ▸ hbelow) (hsize ▸ habove)]
        -- both quotients are expanded to the same one
        have hnum : digits * 10 ^ places * 10 ^ (exponent - places).toNat * 10 ^ (-exponent).toNat =
            digits * 10 ^ exponent.toNat * 10 ^ (-(exponent - places)).toNat := by
          simp only [mul_assoc, ← pow_add]
          congr 2
          omega
        rw [← ofRatio_mul (by positivity : 0 < 10 ^ (-exponent).toNat), hnum,
          mul_comm (10 ^ (-(exponent - places)).toNat), ofRatio_mul (by positivity)]
      · rw [ofDecimal, ofDecimal, if_neg hdigits, if_neg hshifted]
        simp only [hsize]
        rw [if_neg (by omega), if_pos (by omega), if_neg (by omega), if_pos (by omega)]
    · rw [ofDecimal, ofDecimal, if_neg hdigits, if_neg hshifted]
      simp only [hsize]
      rw [if_pos (by omega), if_pos (by omega)]

/-! ## Digits that read back -/

theorem magnitude_lt (x : Binary64) {places : ℕ} (h : 53 + x.exponent ≤ places) :
    x.magnitude < 2 ^ places := by
  rw [magnitude, Nat.shiftLeft_eq]
  calc x.significand * 2 ^ x.exponent < 2 ^ 53 * 2 ^ x.exponent :=
        (Nat.mul_lt_mul_right (by positivity)).mpr (by simpa using x.significand_lt)
    _ = 2 ^ (53 + x.exponent) := (pow_add 2 53 x.exponent).symm
    _ ≤ 2 ^ places := Nat.pow_le_pow_right (by decide) h

theorem magnitude_pos {x : Binary64} (hx : x.isZero = false) : 0 < x.magnitude := by
  have hne : x.significand ≠ 0 := by simpa [isZero] using hx
  rw [magnitude, Nat.shiftLeft_eq]
  positivity

/-- The exact decimal expansion reads back. -/
theorem expansion_reads_back {x : Binary64} (hx : x.isZero = false) :
    x.expansion.toBinary64? = some x := by
  -- the number of places gets a name, so that its powers are not computed
  obtain ⟨places, hplaces⟩ : ∃ places : ℕ, 1074 = places := ⟨_, rfl⟩
  have hpow : Nat.pow 5 places = 5 ^ places := rfl
  have hexpansion : x.expansion = ⟨x.negative, x.magnitude * 5 ^ places, -1074⟩ := by
    rw [expansion, hplaces, hpow]
  have hscale : scale = 2 ^ places := by rw [scale, hplaces, Nat.one_shiftLeft]
  generalize hdigits : x.magnitude * 5 ^ places = digits at hexpansion
  have htop : digitCount digits ≤ 1474 := by
    have hbound : 2 ^ 2098 * 5 ^ places ≤ 10 ^ 1474 := by rw [← hplaces]; decide +kernel
    have hlt : x.magnitude < 2 ^ 2098 := x.magnitude_lt (Nat.add_le_add_left x.exponent_le 53)
    rw [← Nat.mul_lt_mul_right (Nat.pow_pos (by decide) : 0 < 5 ^ places), hdigits] at hlt
    exact digitCount_le_iff.mpr (hlt.trans_le hbound)
  have hbottom : 673 < digitCount digits := by
    have hbound : 10 ^ 673 ≤ 5 ^ places := by rw [← hplaces]; decide +kernel
    have hle : 5 ^ places ≤ digits := hdigits ▸ Nat.le_mul_of_pos_left _ (magnitude_pos hx)
    exact lt_of_not_ge fun h => (digitCount_le_iff.mp h).not_ge (hbound.trans hle)
  have hne : digits ≠ 0 := by
    rintro rfl
    exact absurd hbottom (by decide)
  rw [hexpansion]
  change ofDecimal x.negative digits (-1074) = some x
  rw [ofDecimal_eq_ofRatio hne (by omega) (by omega)]
  refine ofRatio_of_magnitude x (by positivity) ?_
  have hexponent : (-1074 : ℤ).toNat = 0 ∧ (-(-1074) : ℤ).toNat = places := ⟨rfl, hplaces⟩
  have hten : 5 ^ places * 2 ^ places = 10 ^ places := (mul_pow 5 2 places).symm
  rw [hexponent.1, hexponent.2, hscale, pow_zero, mul_one, ← hdigits, mul_assoc, hten]

/-- The digits that are written for a float read back as this float. -/
theorem shortest_reads_back (x : Binary64) : x.shortest.toBinary64? = some x := by
  unfold shortest
  split_ifs with hzero
  · exact congrArg some (eq_zero_of_isZero hzero).symm
  · cases hfound : (List.range' 1 17).findSome? x.withDigits? with
    | none => exact expansion_reads_back (by simpa using hzero)
    | some d =>
      obtain ⟨count, -, h⟩ := List.exists_of_findSome?_eq_some hfound
      exact withDigits?_reads_back h

end Binary64

/-- Zeros at the end of the digits do not count. -/
theorem Decimal.toBinary64?_shift (negative : Bool) (digits places : ℕ) (exponent : ℤ) :
    (Decimal.mk negative (digits * 10 ^ places) (exponent - places)).toBinary64? =
      (Decimal.mk negative digits exponent).toBinary64? :=
  Binary64.ofDecimal_shift negative digits places exponent

end TableClient
