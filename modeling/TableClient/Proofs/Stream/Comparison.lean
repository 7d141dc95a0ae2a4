import Mathlib
import TableClient.Proofs.Stream.Sequence

/-!
# When positions are totally ordered

Texts are totally ordered by their length and their characters, and decimal positions by their
numbers. The comparison of positions is made of these two orders: it takes the second for two
decimal positions and the first for all others. The two orders differ where zeros stand at the
front, and then a text that is no number may stand between two decimal positions that are in the
other order, or the same, as numbers.

Results:
* `compare_of_isDecimal`, `compare_of_not_isDecimal`: which of the two orders is taken.
* `compare_eq_compare_ofDigits`: decimal positions compare as numbers in base ten.
* `orderedOn_iff`: the sets of positions that are totally ordered.
-/

namespace TableClient.SequenceNumber

open Std (TransCmp LawfulEqCmp)

variable {a b c : SequenceNumber} {positions : Set SequenceNumber}

/-! ## The two orders -/

instance : TransCmp compareText :=
  inferInstanceAs
    (TransCmp (compareLex (compareOn String.utf8ByteSize) (Ord.compare (α := String))))

instance : LawfulEqCmp compareText where
  compare_self := by simp [compareText]
  eq_of_compare h := LawfulEqCmp.eq_of_compare (Ordering.then_eq_eq.mp h).2

/-- Two decimal positions compare as their numbers. -/
theorem compare_of_isDecimal (ha : isDecimal a.text = true) (hb : isDecimal b.text = true) :
    compare a b = Ord.compare a.value b.value := by
  rw [compare, if_pos (Bool.and_eq_true_iff.mpr ⟨ha, hb⟩), compareText_significant ha hb]
  rfl

/-- The digits of a decimal position, the last one first. -/
def digits (position : SequenceNumber) : List ℕ :=
  position.text.toList.reverse.map fun c => c.toNat - '0'.toNat

theorem value_eq_ofDigits (position : SequenceNumber) :
    position.value = Nat.ofDigits 10 position.digits := by
  rw [value, digits]
  induction position.text.toList with
  | nil => rfl
  | cons c cs ih =>
    rw [number_cons, ih, List.reverse_cons, List.map_append, Nat.ofDigits_append, List.length_map,
      List.length_reverse, List.map_singleton, Nat.ofDigits_singleton]
    ring

/-- Decimal positions of any widths compare as the numbers that their digits denote in base ten,
    whatever zeros stand at the front. -/
theorem compare_eq_compare_ofDigits (a b : SequenceNumber) (ha : isDecimal a.text = true)
    (hb : isDecimal b.text = true) :
    compare a b = Ord.compare (Nat.ofDigits 10 a.digits) (Nat.ofDigits 10 b.digits) := by
  rw [compare_of_isDecimal ha hb, value_eq_ofDigits, value_eq_ofDigits]

/-- A wider position may come first, and one of zeros alone is the number zero. -/
theorem compare_zeros_front :
    compare ⟨"0099"⟩ ⟨"100"⟩ = .lt ∧ compare ⟨"000"⟩ ⟨"0"⟩ = .eq := by
  constructor
  · rw [compare_eq_compare_ofDigits ⟨"0099"⟩ ⟨"100"⟩ (by decide) (by decide)]
    decide
  · rw [compare_eq_compare_ofDigits ⟨"000"⟩ ⟨"0"⟩ (by decide) (by decide)]
    decide

/-- A position that is not decimal compares with every other one as their texts. -/
theorem compare_of_not_isDecimal (h : isDecimal a.text = false ∨ isDecimal b.text = false) :
    compare a b = compareText a.text b.text := by
  rw [compare, if_neg]
  rcases h with h | h <;> simp [h]

theorem compare_eq_gt_iff : compare a b = .gt ↔ compare b a = .lt := by
  rw [← compare_swap]
  cases compare b a <;> decide

/-- A decimal position is told apart from every position that is not. -/
theorem compare_ne_eq (hne : isDecimal a.text ≠ isDecimal b.text) : compare a b ≠ .eq := by
  intro heq
  have hfalse : isDecimal a.text = false ∨ isDecimal b.text = false := by
    rcases Bool.eq_false_or_eq_true (isDecimal a.text) with ha | ha
    · exact .inr (Bool.eq_false_iff.mpr fun hb => hne (ha.trans hb.symm))
    · exact .inl ha
  rw [compare_of_not_isDecimal hfalse] at heq
  exact hne (congrArg isDecimal (LawfulEqCmp.eq_of_compare heq))

theorem compare_eq_lt_of_le (hne : isDecimal a.text ≠ isDecimal b.text) (hle : a.le b = true) :
    compare a b = .lt := by
  have := compare_ne_eq hne
  rw [le] at hle
  cases h : compare a b <;> simp_all

/-! ## Total orders -/

/-- The comparison is that of a total order on these positions: it is antisymmetric and
    transitive, and positions that compare as equal compare in the same way with all others. -/
structure OrderedOn (positions : Set SequenceNumber) : Prop where
  swap : ∀ a ∈ positions, ∀ b ∈ positions, compare b a = (compare a b).swap
  trans : ∀ a ∈ positions, ∀ b ∈ positions, ∀ c ∈ positions,
    a.le b = true → b.le c = true → a.le c = true
  congr : ∀ a ∈ positions, ∀ b ∈ positions, ∀ c ∈ positions,
    compare a b = .eq → compare a c = compare b c

/-- A position that is not decimal stands between two decimal ones only where the number of the
    first is less than that of the second. -/
def Agree (positions : Set SequenceNumber) : Prop :=
  ∀ a ∈ positions, ∀ b ∈ positions, ∀ c ∈ positions, isDecimal a.text = true →
    isDecimal b.text = true → isDecimal c.text = false →
    compare a c = .lt → compare c b = .lt → a.value < b.value

theorem OrderedOn.agree (h : OrderedOn positions) : Agree positions := by
  intro a ha b hb c hc hda hdb hdc hac hcb
  have hle : a.le b = true :=
    h.trans a ha c hc b hb (by rw [le, hac]; rfl) (by rw [le, hcb]; rfl)
  refine lt_of_le_of_ne ((le_iff_value_le hda hdb).mp hle) fun heq => ?_
  have hsame : compare a b = .eq := by
    rw [compare_of_isDecimal hda hdb, heq, Nat.compare_eq_eq]
  have hbc := h.swap c hc b hb
  rw [← h.congr a ha b hb c hc hsame, hac, hcb] at hbc
  cases hbc

section
variable (h : Agree positions) (ha : a ∈ positions) (hb : b ∈ positions) (hc : c ∈ positions)
include h ha hb hc

/-- Of two decimal positions, one that is not greater comes before every position that is not
    decimal and that the other one comes before. -/
theorem Agree.lt_of_value_le (hda : isDecimal a.text = true) (hdb : isDecimal b.text = true)
    (hdc : isDecimal c.text = false) (hle : a.value ≤ b.value) (hbc : compare b c = .lt) :
    compare a c = .lt := by
  cases hac : compare a c with
  | lt => rfl
  | eq => exact absurd hac (compare_ne_eq (by rw [hda, hdc]; decide))
  | gt =>
    exact absurd (h b hb a ha c hc hdb hda hdc hbc (compare_eq_gt_iff.mp hac)) (Nat.not_lt.mpr hle)

theorem Agree.trans (hab : a.le b = true) (hbc : b.le c = true) : a.le c = true := by
  cases hda : isDecimal a.text <;> cases hdb : isDecimal b.text <;> cases hdc : isDecimal c.text
  -- With one decimal position at most, only texts are compared.
  case false.false.false | false.false.true | false.true.false | true.false.false =>
    rw [le, compare_of_not_isDecimal (by simp [hda, hdb, hdc])] at hab hbc ⊢
    exact TransCmp.isLE_trans hab hbc
  case true.true.true =>
    rw [le_iff_value_le ‹_› ‹_›] at hab hbc ⊢
    exact hab.trans hbc
  case false.true.true =>
    have hab' := compare_eq_lt_of_le (by rw [hda, hdb]; decide) hab
    cases hac : compare a c with
    | lt | eq => rw [le, hac]; rfl
    | gt =>
      have hba := h.lt_of_value_le hb hc ha hdb hdc hda ((le_iff_value_le hdb hdc).mp hbc)
        (compare_eq_gt_iff.mp hac)
      rw [← compare_eq_gt_iff, hab'] at hba
      cases hba
  case true.false.true =>
    have hlt := h a ha c hc b hb hda hdc hdb
      (compare_eq_lt_of_le (by rw [hda, hdb]; decide) hab)
      (compare_eq_lt_of_le (by rw [hdb, hdc]; decide) hbc)
    exact (le_iff_value_le hda hdc).mpr hlt.le
  case true.true.false =>
    have hac := h.lt_of_value_le ha hb hc hda hdb hdc ((le_iff_value_le hda hdb).mp hab)
      (compare_eq_lt_of_le (by rw [hdb, hdc]; decide) hbc)
    rw [le, hac]
    rfl

theorem Agree.congr (hab : compare a b = .eq) : compare a c = compare b c := by
  cases hda : isDecimal a.text
  case false =>
    rw [compare_of_not_isDecimal (.inl hda)] at hab
    rw [compare, compare, LawfulEqCmp.eq_of_compare hab]
  case true =>
    have hdb : isDecimal b.text = true := by
      rw [← hda]
      by_contra hne
      exact compare_ne_eq (Ne.symm hne) hab
    have hvalue : a.value = b.value := by
      rwa [compare_of_isDecimal hda hdb, Nat.compare_eq_eq] at hab
    cases hdc : isDecimal c.text
    case true => rw [compare_of_isDecimal hda hdc, compare_of_isDecimal hdb hdc, hvalue]
    case false =>
      have hsame : compare a c = .lt ↔ compare b c = .lt :=
        ⟨h.lt_of_value_le hb ha hc hdb hda hdc hvalue.ge,
          h.lt_of_value_le ha hb hc hda hdb hdc hvalue.le⟩
      have hac := compare_ne_eq (a := a) (b := c) (by rw [hda, hdc]; decide)
      have hbc := compare_ne_eq (a := b) (b := c) (by rw [hdb, hdc]; decide)
      cases hcompare : compare a c <;> cases hcompare' : compare b c <;> simp_all

end

/-- Positions are totally ordered exactly if no position that is not decimal stands between two
    decimal ones that are in the other order, or the same, as numbers. -/
theorem orderedOn_iff (positions : Set SequenceNumber) :
    OrderedOn positions ↔
      ∀ a ∈ positions, ∀ b ∈ positions, ∀ c ∈ positions, isDecimal a.text = true →
        isDecimal b.text = true → isDecimal c.text = false →
        compare a c = .lt → compare c b = .lt → a.value < b.value := by
  refine ⟨OrderedOn.agree, fun h => ?_⟩
  exact {
    swap := fun a _ b _ => (compare_swap a b).symm
    trans := fun a ha b hb c hc hab hbc => Agree.trans h ha hb hc hab hbc
    congr := fun a ha b hb c hc hab => Agree.congr h ha hb hc hab }

/-- Zeros at the front of a number make room for a text on one side of it: `7` and `007` are the
    same position, and `ab` comes behind the one and before the other. -/
theorem not_orderedOn_leadingZeros :
    compare ⟨"7"⟩ ⟨"007"⟩ = .eq ∧ compare ⟨"7"⟩ ⟨"ab"⟩ = .lt ∧ compare ⟨"007"⟩ ⟨"ab"⟩ = .gt ∧
      ¬ OrderedOn Set.univ := by
  have hsame : compare ⟨"7"⟩ ⟨"007"⟩ = .eq := by decide
  have hbefore : compare ⟨"7"⟩ ⟨"ab"⟩ = .lt := by decide
  have hbehind : compare ⟨"007"⟩ ⟨"ab"⟩ = .gt := by decide
  refine ⟨hsame, hbefore, hbehind, fun h => ?_⟩
  have := h.congr _ trivial _ trivial ⟨"ab"⟩ trivial hsame
  rw [hbefore, hbehind] at this
  cases this

end TableClient.SequenceNumber
