import Mathlib
import TableClient.Stream.Sequence

/-!
# Decimal positions

Decimal positions are in the order of the numbers that they denote, whatever their widths, and a
shard with a decimal range contains the decimal positions whose numbers lie in the range.

Results:
* `compareText_significant`: digits without the zeros at their front compare as their numbers.
* `le_iff_value_le`: decimal positions are in the order of their numbers.
* `contains_iff_covers`: which decimal positions a shard contains.
-/

namespace TableClient

namespace SequenceNumber

/-- The number that digits denote. -/
def number (digits : List Char) : ℕ := Nat.ofDigitChars 10 digits 0

/-- The number that a decimal position denotes. -/
def value (position : SequenceNumber) : ℕ := number position.text.toList

/-! ## Numbers of digits -/

section Digits

variable {c d : Char} {cs ds : List Char}

theorem isDigit_iff : c.isDigit = true ↔ '0'.toNat ≤ c.toNat ∧ c.toNat ≤ '9'.toNat := by
  simp only [Char.isDigit, Bool.and_eq_true, decide_eq_true_eq]
  rfl

theorem number_cons (c : Char) (cs : List Char) :
    number (c :: cs) = (c.toNat - '0'.toNat) * 10 ^ cs.length + number cs := by
  rw [number, Nat.ofDigitChars_cons, Nat.ofDigitChars_eq_ofDigitChars_zero, number]
  ring

theorem number_lt (h : ∀ c ∈ cs, c.isDigit = true) : number cs < 10 ^ cs.length := by
  induction cs with
  | nil => simp [number]
  | cons c cs ih =>
    have hc := isDigit_iff.mp (h c List.mem_cons_self)
    have hcs := ih fun d hd => h d (List.mem_cons_of_mem _ hd)
    have hdigit : c.toNat - '0'.toNat ≤ 9 := by
      have : '9'.toNat = '0'.toNat + 9 := rfl
      omega
    have hlead := Nat.mul_le_mul_right (10 ^ cs.length) hdigit
    rw [number_cons, List.length_cons, pow_succ]
    omega

/-- Zeros at the front do not count. -/
theorem number_dropWhile (cs : List Char) : number (cs.dropWhile (· == '0')) = number cs := by
  induction cs with
  | nil => rfl
  | cons c cs ih =>
    by_cases hc : c = '0'
    · subst hc
      rw [List.dropWhile_cons_of_pos rfl, ih, number_cons]
      simp
    · rw [List.dropWhile_cons_of_neg (by simpa using hc)]

/-- Of digits of one length, those that come first are those of the smaller number. -/
theorem lt_iff_number_lt (hcs : ∀ c ∈ cs, c.isDigit = true) (hds : ∀ d ∈ ds, d.isDigit = true)
    (hlength : cs.length = ds.length) : cs < ds ↔ number cs < number ds := by
  induction cs generalizing ds with
  | nil =>
    obtain rfl := List.eq_nil_of_length_eq_zero hlength.symm
    simp
  | cons c cs ih =>
    cases ds with
    | nil => simp at hlength
    | cons d ds =>
      have hc := isDigit_iff.mp (hcs c List.mem_cons_self)
      have hd := isDigit_iff.mp (hds d List.mem_cons_self)
      have hcs' := fun x hx => hcs x (List.mem_cons_of_mem c hx)
      have hds' := fun x hx => hds x (List.mem_cons_of_mem d hx)
      have hlen : cs.length = ds.length := by simpa using hlength
      have hbelow := number_lt hcs'
      have hbelow' := number_lt hds'
      rw [List.cons_lt_cons_iff, ih hcs' hds' hlen, number_cons, number_cons, hlen]
      rw [hlen] at hbelow
      have hchar : c < d ↔ c.toNat < d.toNat := Iff.rfl
      have heq : c = d ↔ c.toNat = d.toNat := ⟨congrArg _, Char.toNat_inj.mp⟩
      rw [hchar, heq]
      -- The first digit decides unless it is the same in both.
      rcases lt_trichotomy c.toNat d.toNat with hlt | hsame | hgt
      · have hstep : c.toNat - '0'.toNat + 1 ≤ d.toNat - '0'.toNat := by omega
        have := Nat.mul_le_mul_right (10 ^ ds.length) hstep
        rw [Nat.add_mul] at this
        simp only [hlt, true_or, true_iff]
        omega
      · simp [hsame]
      · have hstep : d.toNat - '0'.toNat + 1 ≤ c.toNat - '0'.toNat := by omega
        have := Nat.mul_le_mul_right (10 ^ ds.length) hstep
        rw [Nat.add_mul] at this
        have hne : c.toNat ≠ d.toNat := by omega
        simp only [hgt.not_gt, hne, false_and, or_self, false_iff]
        omega

theorem number_lt_of_length_lt (hcs : ∀ c ∈ cs, c.isDigit = true)
    (hds : ∀ d ∈ ds, d.isDigit = true) (hlead : ds.head? ≠ some '0')
    (hlength : cs.length < ds.length) : number cs < number ds := by
  cases ds with
  | nil => simp at hlength
  | cons d ds =>
    have hd := isDigit_iff.mp (hds d List.mem_cons_self)
    have hne : d.toNat ≠ '0'.toNat := fun h => hlead (congrArg some (Char.toNat_inj.mp h))
    have hone : 1 ≤ d.toNat - '0'.toNat := by omega
    have hle : cs.length ≤ ds.length := by simpa [Nat.lt_succ_iff] using hlength
    calc number cs < 10 ^ cs.length := number_lt hcs
      _ ≤ 1 * 10 ^ ds.length := by rw [one_mul]; exact Nat.pow_le_pow_right (by decide) hle
      _ ≤ (d.toNat - '0'.toNat) * 10 ^ ds.length := Nat.mul_le_mul_right _ hone
      _ ≤ number (d :: ds) := by rw [number_cons]; exact Nat.le_add_right _ _

theorem utf8ByteSize_digits (h : ∀ c ∈ cs, c.isDigit = true) :
    (String.ofList cs).utf8ByteSize = cs.length := by
  rw [String.utf8ByteSize_ofList]
  induction cs with
  | nil => rfl
  | cons c cs ih =>
    have hc := isDigit_iff.mp (h c List.mem_cons_self)
    have hsize : c.utf8Size = 1 := by
      rw [Char.utf8Size_eq_one_iff]
      have : '9'.toNat ≤ 127 := by decide
      exact hc.2.trans this
    rw [String.utf8Len_cons, ih fun d hd => h d (List.mem_cons_of_mem _ hd), hsize,
      List.length_cons]

/-- Digits without zeros at the front are told apart by the numbers that they denote. -/
theorem eq_of_number_eq (hcs : ∀ c ∈ cs, c.isDigit = true) (hds : ∀ d ∈ ds, d.isDigit = true)
    (hcsLead : cs.head? ≠ some '0') (hdsLead : ds.head? ≠ some '0')
    (h : number cs = number ds) : cs = ds := by
  rcases lt_trichotomy cs.length ds.length with hlt | hlen | hgt
  · exact absurd h (number_lt_of_length_lt hcs hds hdsLead hlt).ne
  · have hle : ¬ cs < ds := fun hlt => h.not_lt ((lt_iff_number_lt hcs hds hlen).mp hlt)
    have hge : ¬ ds < cs := fun hgt => h.not_gt ((lt_iff_number_lt hds hcs hlen.symm).mp hgt)
    exact List.le_antisymm (List.not_lt.mp hge) (List.not_lt.mp hle)
  · exact absurd h.symm (number_lt_of_length_lt hds hcs hcsLead hgt).ne

theorem compareText_eq_lt (hcs : ∀ c ∈ cs, c.isDigit = true) (hds : ∀ d ∈ ds, d.isDigit = true)
    (hcsLead : cs.head? ≠ some '0') (h : number cs < number ds) :
    compareText (String.ofList cs) (String.ofList ds) = .lt := by
  rw [compareText, utf8ByteSize_digits hcs, utf8ByteSize_digits hds]
  rcases lt_trichotomy cs.length ds.length with hlt | hlen | hgt
  · rw [Nat.compare_eq_lt.mpr hlt]
    rfl
  · rw [Nat.compare_eq_eq.mpr hlen, Ordering.eq_then]
    refine compareOfLessAndEq_eq_lt.mpr ?_
    rw [String.lt_iff, String.toList_ofList, String.toList_ofList]
    exact (lt_iff_number_lt hcs hds hlen).mpr h
  · exact absurd h (number_lt_of_length_lt hds hcs hcsLead hgt).not_gt

/-- Digits without zeros at the front compare as the numbers that they denote. -/
theorem compareText_digits (hcs : ∀ c ∈ cs, c.isDigit = true) (hds : ∀ d ∈ ds, d.isDigit = true)
    (hcsLead : cs.head? ≠ some '0') (hdsLead : ds.head? ≠ some '0') :
    compareText (String.ofList cs) (String.ofList ds) = Ord.compare (number cs) (number ds) := by
  rcases lt_trichotomy (number cs) (number ds) with hlt | heq | hgt
  · rw [compareText_eq_lt hcs hds hcsLead hlt, Nat.compare_eq_lt.mpr hlt]
  · obtain rfl := eq_of_number_eq hcs hds hcsLead hdsLead heq
    rw [compareText, Std.compare_self, Std.compare_self, Std.compare_self]
    rfl
  · rw [← compareText_swap, compareText_eq_lt hds hcs hdsLead hgt, Nat.compare_eq_gt.mpr hgt]
    rfl

end Digits

/-! ## Positions -/

variable {a b position : SequenceNumber}

theorem digits_of_isDecimal {text : String} (h : isDecimal text = true) :
    ∀ c ∈ text.toList, c.isDigit = true := by
  simp only [isDecimal, Bool.and_eq_true, List.all_eq_true] at h
  exact h.2

/-- Decimal positions compare as the numbers of their digits behind the zeros at the front. -/
theorem compareText_significant {a b : String} (ha : isDecimal a = true) (hb : isDecimal b = true) :
    compareText (significant a) (significant b) =
      Ord.compare (number a.toList) (number b.toList) := by
  have hdigits : ∀ {text : String}, isDecimal text = true →
      ∀ c ∈ text.toList.dropWhile (· == '0'), c.isDigit = true := fun h c hc =>
    digits_of_isDecimal h c ((List.dropWhile_suffix _).subset hc)
  have hlead : ∀ text : String, (text.toList.dropWhile (· == '0')).head? ≠ some '0' := by
    intro text hzero
    have := List.head?_dropWhile_not (· == '0') text.toList
    rw [hzero] at this
    simp at this
  rw [significant, significant, compareText_digits (hdigits ha) (hdigits hb) (hlead a) (hlead b),
    number_dropWhile, number_dropWhile]

/-- Decimal positions are in the order of their numbers. -/
theorem le_iff_value_le (ha : isDecimal a.text = true) (hb : isDecimal b.text = true) :
    a.le b = true ↔ a.value ≤ b.value := by
  rw [le, compare, if_pos (Bool.and_eq_true_iff.mpr ⟨ha, hb⟩), compareText_significant ha hb,
    Nat.isLE_compare]
  rfl

end SequenceNumber

namespace Shard

/-- A shard whose range is decimal. -/
structure Decimal (shard : Shard) : Prop where
  start : SequenceNumber.isDecimal shard.start.text = true
  stop : ∀ stop ∈ shard.stop, SequenceNumber.isDecimal stop.text = true

/-- The numbers in the range of a shard. -/
def Covers (shard : Shard) (n : ℕ) : Prop :=
  shard.start.value ≤ n ∧ ∀ stop ∈ shard.stop, n ≤ stop.value

/-- Shards whose ranges have no number in common. -/
def Apart (a b : Shard) : Prop := ∀ n, ¬ (a.Covers n ∧ b.Covers n)

theorem Apart.symm {a b : Shard} (h : a.Apart b) : b.Apart a := fun n hn => h n hn.symm

/-- A shard with a decimal range contains the decimal positions whose numbers it covers. -/
theorem contains_iff_covers {shard : Shard} (hshard : shard.Decimal) {position : SequenceNumber}
    (hposition : SequenceNumber.isDecimal position.text = true) :
    shard.contains position = true ↔ shard.Covers position.value := by
  rw [contains, Bool.and_eq_true, SequenceNumber.le_iff_value_le hshard.start hposition, Covers]
  refine and_congr_right fun _ => ?_
  cases hstop : shard.stop with
  | none => simp
  | some stop =>
    have hdecimal := hshard.stop stop (by rw [hstop]; rfl)
    simp only [Option.all_some, Option.mem_some_iff, forall_eq']
    exact SequenceNumber.le_iff_value_le hposition hdecimal

end Shard

end TableClient
