import Mathlib
import TableClient.Json.Basic
import TableClient.Proofs.Number.Rounding

/-!
# Texts of numbers

An integer is read from its own text, and a float from its own: whatever layout a decimal number is
written in, the text denotes a number that has the same nearest float. The text of a float is
never that of an integer.

Results:
* `readInt?_toString`: an integer is read from its own text.
* `Decimal.Spelling.ofText?_text`, `Decimal.Spelling.readInt?_text`: what a spelling denotes.
* `Decimal.exists_spelling`: the text of a decimal number in any layout is that of a spelling.
* `JsonNumber.ofText?_toText`: a number is read from its own text.
-/

namespace TableClient

/-! ## Digits -/

section Digits

variable {c : Char} {text : List Char}

theorem digitValue?_of_isDigit (h : c.isDigit = true) :
    digitValue? c = some (c.toNat - '0'.toNat) := by
  have hbounds : '0' ≤ c ∧ c ≤ '9' := by
    simpa [Char.isDigit, Char.le_def, UInt32.le_iff_toNat_le] using h
  rw [digitValue?, if_pos hbounds]

theorem digitValue?_eq_none (h : c.isDigit = false) : digitValue? c = none := by
  have hbounds : ¬ ('0' ≤ c ∧ c ≤ '9') := by
    simpa [Char.isDigit, Char.le_def, UInt32.le_iff_toNat_le] using h
  rw [digitValue?, if_neg hbounds]

/-- A nonempty text of digits denotes the number of its digits. -/
theorem readNat?_digits (hne : text ≠ []) (h : ∀ c ∈ text, c.isDigit = true) :
    readNat? text = some (Nat.ofDigitChars 10 text 0) := by
  have hfold : ∀ (text : List Char) (n : ℕ), (∀ c ∈ text, c.isDigit = true) →
      text.foldl (fun acc c => do return 10 * (← acc) + (← digitValue? c)) (some n) =
        some (Nat.ofDigitChars 10 text n) := by
    intro text
    induction text with
    | nil => simp
    | cons c text ih =>
      intro n h
      have hc := digitValue?_of_isDigit (h c List.mem_cons_self)
      rw [List.foldl_cons, hc, Nat.ofDigitChars_cons]
      exact ih _ fun d hd => h d (List.mem_cons_of_mem c hd)
  rw [readNat?, if_neg (by simpa using hne)]
  exact hfold text 0 h

/-- A text with a character that is no digit denotes no natural number. -/
theorem readNat?_eq_none (hmem : c ∈ text) (h : c.isDigit = false) : readNat? text = none := by
  have hnone : ∀ text : List Char,
      text.foldl (fun acc c => do return 10 * (← acc) + (← digitValue? c)) (none : Option ℕ) =
        none := by
    intro text
    induction text with
    | nil => rfl
    | cons c text ih => exact ih
  obtain ⟨before, after, rfl⟩ := List.append_of_mem hmem
  rw [readNat?, if_neg (by simp), List.foldl_append, List.foldl_cons, digitValue?_eq_none h]
  simpa using hnone after

theorem isDigit_toDigits (n : ℕ) : ∀ c ∈ Nat.toDigits 10 n, c.isDigit = true := fun _ =>
  Nat.isDigit_of_mem_toDigits (by decide) (by decide)

theorem readNat?_toDigits (n : ℕ) : readNat? (Nat.toDigits 10 n) = some n := by
  rw [readNat?_digits Nat.toDigits_ne_nil (isDigit_toDigits n), Nat.ofDigitChars_ten_toDigits]

/-- Digits are read up to the first character that is none. -/
theorem takeWhile_isDigit {digits rest : List Char} (hdigits : ∀ c ∈ digits, c.isDigit = true)
    (hrest : ∀ c ∈ rest.head?, c.isDigit = false) :
    (digits ++ rest).takeWhile Char.isDigit = digits ∧
      (digits ++ rest).dropWhile Char.isDigit = rest := by
  rw [List.takeWhile_append_of_pos hdigits, List.dropWhile_append_of_pos hdigits]
  cases rest with
  | nil => simp
  | cons c rest => simp [hrest c rfl]

end Digits

/-! ## Signs -/

/-- The sign of a negative number; the others have none. -/
def signText (negative : Bool) : List Char := if negative then ['-'] else []

/-- The sign in front of a digit is read off. -/
theorem readSign_signText {c : Char} (h : c.isDigit = true) (negative : Bool) (text : List Char) :
    readSign (signText negative ++ c :: text) = (negative, c :: text) := by
  cases negative with
  | true => rfl
  | false =>
    have hminus : c ≠ '-' := by rintro rfl; contradiction
    have hplus : c ≠ '+' := by rintro rfl; contradiction
    rw [signText, if_neg (by decide), List.nil_append, readSign]
    · exact fun rest h => hminus (List.cons.inj h).1
    · exact fun rest h => hplus (List.cons.inj h).1

theorem exists_digit_cons {text : List Char} (hne : text ≠ []) (h : ∀ c ∈ text, c.isDigit = true) :
    ∃ c rest, text = c :: rest ∧ c.isDigit = true := by
  obtain ⟨c, rest, rfl⟩ := List.exists_cons_of_ne_nil hne
  exact ⟨c, rest, rfl, h c List.mem_cons_self⟩

theorem exists_toDigits_eq_cons (n : ℕ) :
    ∃ c rest, Nat.toDigits 10 n = c :: rest ∧ c.isDigit = true :=
  exists_digit_cons Nat.toDigits_ne_nil (isDigit_toDigits n)

theorem toList_toString (n : ℤ) :
    (toString n).toList = signText (decide (n < 0)) ++ Nat.toDigits 10 n.natAbs := by
  rw [Int.toString_eq_repr, Int.repr_eq_if]
  by_cases h : 0 ≤ n
  · have habs : n.toNat = n.natAbs := by omega
    rw [if_pos h, decide_eq_false (by omega), Nat.toList_repr, habs]
    rfl
  · have habs : (-n).toNat = n.natAbs := by omega
    rw [if_neg h, decide_eq_true (by omega), String.toList_append, Nat.toList_repr, habs]
    rfl

/-- An integer is read from its own text. -/
theorem readInt?_toString (n : ℤ) : readInt? (toString n).toList = some n := by
  obtain ⟨c, rest, hdigits, hc⟩ := exists_toDigits_eq_cons n.natAbs
  have habs : (if n < 0 then -(n.natAbs : ℤ) else n.natAbs) = n := by split <;> omega
  rw [readInt?, toList_toString, hdigits, readSign_signText hc, ← hdigits]
  simpa [readNat?_toDigits] using habs

/-- An exponent is read from its text. -/
theorem readInt?_exponentText (e : ℤ) : readInt? (Decimal.exponentText e) = some e := by
  have habs : (if e < 0 then -(e.natAbs : ℤ) else e.natAbs) = e := by split <;> omega
  have hsign : readSign (Decimal.exponentText e) = (decide (e < 0), Nat.toDigits 10 e.natAbs) := by
    rw [Decimal.exponentText]
    by_cases h : e < 0 <;> simp [h, readSign]
  rw [readInt?, hsign]
  simpa [readNat?_toDigits] using habs

/-! ## Spellings -/

namespace Decimal

/-- A decimal number as it is spelled. There is a point where there are places. -/
structure Spelling where
  negative : Bool
  whole : List Char
  places : List Char
  exponent? : Option ℤ
  whole_ne : whole ≠ []
  isDigit_whole : ∀ c ∈ whole, c.isDigit = true
  isDigit_places : ∀ c ∈ places, c.isDigit = true

namespace Spelling

/-- The exponent with its letter, if there is one. -/
def tail (s : Spelling) : List Char :=
  match s.exponent? with
  | none => []
  | some e => 'e' :: exponentText e

/-- The point and the places, if there are any. -/
def fraction (s : Spelling) : List Char := if s.places.isEmpty then [] else '.' :: s.places

def text (s : Spelling) : List Char := signText s.negative ++ (s.whole ++ (s.fraction ++ s.tail))

/-- The number that is spelled. -/
def decimal (s : Spelling) : Decimal :=
  ⟨s.negative, Nat.ofDigitChars 10 (s.whole ++ s.places) 0,
    s.exponent?.getD 0 - s.places.length⟩

variable {s : Spelling}

theorem readSign_text (s : Spelling) :
    readSign s.text = (s.negative, s.whole ++ (s.fraction ++ s.tail)) := by
  obtain ⟨c, rest, hwhole, hc⟩ := exists_digit_cons s.whole_ne s.isDigit_whole
  rw [text, hwhole, List.cons_append, readSign_signText hc]

theorem readExponent?_tail (s : Spelling) :
    readExponent? s.tail = some (s.exponent?.getD 0) := by
  unfold tail
  cases s.exponent? with
  | none => rfl
  | some e => simp [readExponent?, readInt?_exponentText]

theorem tail_cases (s : Spelling) : s.tail = [] ∨ ∃ rest, s.tail = 'e' :: rest := by
  unfold tail
  cases s.exponent? with
  | none => exact .inl rfl
  | some e => exact .inr ⟨_, rfl⟩

/-- Behind the digits stands something that is no digit, if there is anything. -/
theorem isDigit_head_tail (s : Spelling) : ∀ c ∈ s.tail.head?, c.isDigit = false := by
  rcases s.tail_cases with htail | ⟨rest, htail⟩ <;> simp [htail]

theorem isDigit_head_behind (s : Spelling) :
    ∀ c ∈ (s.fraction ++ s.tail).head?, c.isDigit = false := by
  unfold fraction
  split_ifs
  · exact s.isDigit_head_tail
  · simp

theorem readNat?_digits_text (s : Spelling) :
    readNat? (s.whole ++ s.places) = some (Nat.ofDigitChars 10 (s.whole ++ s.places) 0) :=
  readNat?_digits (by simp [s.whole_ne]) fun c hc =>
    (List.mem_append.mp hc).elim (s.isDigit_whole c) (s.isDigit_places c)

/-- What the text of a spelling denotes. -/
theorem ofText?_text (s : Spelling) : ofText? s.text = some s.decimal := by
  have hwhole := takeWhile_isDigit s.isDigit_whole s.isDigit_head_behind
  have hexponent := s.readExponent?_tail
  have hread := s.readNat?_digits_text
  simp only [ofText?, readSign_text, hwhole]
  by_cases hempty : s.places = []
  · have hfraction : s.fraction ++ s.tail = s.tail := by simp [fraction, hempty]
    rw [hempty, List.append_nil] at hread
    rw [hfraction]
    rcases s.tail_cases with htail | ⟨rest, htail⟩ <;> rw [htail] at hexponent <;>
      simp [htail, hread, hexponent, decimal, hempty]
  · have hplaces := takeWhile_isDigit s.isDigit_places s.isDigit_head_tail
    have hfraction : s.fraction ++ s.tail = '.' :: (s.places ++ s.tail) := by
      rw [fraction, if_neg (by simpa using hempty), List.cons_append]
    simp only [hfraction, hplaces, hread, hexponent, decimal]

/-- A spelling with places or an exponent is not that of an integer. -/
theorem readInt?_text (h : s.places ≠ [] ∨ s.exponent? ≠ none) : readInt? s.text = none := by
  have hmem : ∃ c ∈ s.whole ++ (s.fraction ++ s.tail), c.isDigit = false := by
    rcases h with hplaces | hexponent
    · exact ⟨'.', by simp [fraction, hplaces], by decide⟩
    · obtain ⟨e, he⟩ := Option.ne_none_iff_exists'.mp hexponent
      exact ⟨'e', by simp [tail, he], by decide⟩
  obtain ⟨c, hc, hdigit⟩ := hmem
  rw [readInt?, readSign_text]
  simp only [readNat?_eq_none hc hdigit]
  rfl

end Spelling

/-! ## Layouts -/

/-- Digits are those without the zeros at their end, and zeros. -/
theorem exists_trailing_zeros (digits : List Char) : ∃ zeros,
    digits = (digits.reverse.dropWhile (· == '0')).reverse ++ List.replicate zeros '0' := by
  obtain ⟨zeros, hzeros⟩ : ∃ zeros,
      digits.reverse.takeWhile (· == '0') = List.replicate zeros '0' :=
    ⟨_, List.eq_replicate_of_mem fun c hc => by simpa using List.mem_takeWhile_imp hc⟩
  refine ⟨zeros, List.reverse_injective ?_⟩
  rw [List.reverse_append, List.reverse_reverse, List.reverse_replicate, ← hzeros,
    List.takeWhile_append_dropWhile]

/-- The digits that are laid out, with any zeros behind them, have the same nearest float as the
    number. -/
theorem exists_significand (d : Decimal) : ∃ kept e,
    (if d.digits = 0 then (['0'], 0) else d.leading) = (kept, e) ∧ kept ≠ [] ∧
      (∀ c ∈ kept, c.isDigit = true) ∧ ∀ zeros : ℕ,
        (Decimal.mk d.negative (Nat.ofDigitChars 10 kept 0 * 10 ^ zeros)
          (e + 1 - kept.length - zeros)).toBinary64? = d.toBinary64? := by
  by_cases hzero : d.digits = 0
  · refine ⟨['0'], 0, if_pos hzero, by simp, by simp, fun zeros => ?_⟩
    simp [toBinary64?, Binary64.ofDecimal, hzero, Nat.ofDigitChars_cons]
  · obtain ⟨zeros, hdigits⟩ := exists_trailing_zeros (Nat.toDigits 10 d.digits)
    generalize hkept : ((Nat.toDigits 10 d.digits).reverse.dropWhile (· == '0')).reverse = kept
      at hdigits
    have hvalue : d.digits = Nat.ofDigitChars 10 kept 0 * 10 ^ zeros := by
      rw [← Nat.ofDigitChars_ten_toDigits (n := d.digits), hdigits, Nat.ofDigitChars_append,
        Nat.ofDigitChars_replicate_zero, mul_comm]
    have hne : kept ≠ [] := by
      rintro rfl
      exact hzero (by simpa using hvalue)
    have hmem : ∀ c ∈ kept, c.isDigit = true := fun c hc =>
      isDigit_toDigits d.digits c (hdigits ▸ List.mem_append_left _ hc)
    refine ⟨kept, d.exponent + (Nat.toDigits 10 d.digits).length - 1, ?_, hne, hmem, fun more => ?_⟩
    · rw [if_neg hzero, leading]
      simp only [hkept, List.isEmpty_iff, hne, if_false]
    · have hexponent : d.exponent + (Nat.toDigits 10 d.digits).length - 1 + 1 - kept.length =
          d.exponent + zeros := by
        rw [hdigits]
        simp
        omega
      have hsame := toBinary64?_shift d.negative (Nat.ofDigitChars 10 kept 0) zeros
        (d.exponent + zeros)
      rw [hexponent, toBinary64?_shift, ← hsame, ← hvalue]
      simp

theorem isDigit_of_mem_zeros {n : ℕ} : ∀ c ∈ List.replicate n '0', c.isDigit = true :=
  fun _ hc => List.eq_of_mem_replicate hc ▸ rfl

/-- Digits that are filled up with zeros to the place of the point, and a zero behind it if nothing
    else is there, make up the same number with zeros behind it. -/
theorem exists_padded_value (kept : List Char) (whole : ℕ) :
    let padded := kept ++ List.replicate (whole - kept.length) '0'
    let places := if (padded.drop whole).isEmpty then ['0'] else padded.drop whole
    ∃ zeros : ℕ, Nat.ofDigitChars 10 (padded.take whole ++ places) 0 =
        Nat.ofDigitChars 10 kept 0 * 10 ^ zeros ∧
      whole + places.length = kept.length + zeros := by
  intro padded places
  by_cases hlength : kept.length ≤ whole
  · -- the digits end before the point
    have hpadded : padded.length = whole := by simp [padded, hlength]
    have hplaces : places = ['0'] := by
      simp only [places, List.drop_of_length_le hpadded.le, List.isEmpty_nil, if_true]
    refine ⟨whole - kept.length + 1, ?_, by simp [hplaces]; omega⟩
    rw [hplaces, List.take_of_length_le hpadded.le, Nat.ofDigitChars_append,
      Nat.ofDigitChars_append, Nat.ofDigitChars_replicate_zero, Nat.ofDigitChars_cons,
      Nat.ofDigitChars_nil, pow_succ]
    simp
    ring
  · have hpadded : padded = kept := by
      simp only [padded, Nat.sub_eq_zero_of_le (Nat.le_of_not_le hlength), List.replicate_zero,
        List.append_nil]
    have hplaces : places = kept.drop whole := by
      simp only [places, hpadded]
      rw [if_neg (by simpa using hlength)]
    refine ⟨0, ?_, by rw [hplaces, List.length_drop]; omega⟩
    rw [hplaces, hpadded, List.take_append_drop, pow_zero, mul_one]

section Bodies

variable {kept : List Char} (hne : kept ≠ []) (hdigit : ∀ c ∈ kept, c.isDigit = true)
include hne hdigit

/-- A number below one: a zero, the point, perhaps zeros, and the digits. -/
theorem exists_spelling_below (negative : Bool) {e : ℤ} (he : e < 0) :
    ∃ s : Spelling, s.text = signText negative ++
        ('0' :: '.' :: List.replicate (-e - 1).toNat '0' ++ kept) ∧ s.places ≠ [] ∧
      s.decimal = ⟨negative, Nat.ofDigitChars 10 kept 0, e + 1 - kept.length⟩ := by
  refine ⟨⟨negative, ['0'], List.replicate (-e - 1).toNat '0' ++ kept, none, by simp, by simp,
    fun c hc => (List.mem_append.mp hc).elim (isDigit_of_mem_zeros c) (hdigit c)⟩, ?_, ?_, ?_⟩
  · simp [Spelling.text, Spelling.fraction, Spelling.tail, hne]
  · simp [hne]
  · have hexponent : (0 : ℤ) - (List.replicate (-e - 1).toNat '0' ++ kept).length =
        e + 1 - kept.length := by
      rw [List.length_append, List.length_replicate]
      omega
    have hdigits : Nat.ofDigitChars 10 (['0'] ++ (List.replicate (-e - 1).toNat '0' ++ kept)) 0 =
        Nat.ofDigitChars 10 kept 0 := by
      simp [Nat.ofDigitChars_cons, Nat.ofDigitChars_append]
    rw [Spelling.decimal, hdigits, Option.getD_none, hexponent]

/-- A number with a point behind a leading part: the digits, zeros up to the point, and a zero
    behind it when there are no other places. -/
theorem exists_spelling_plain (negative : Bool) {e : ℤ} (he : 0 ≤ e) :
    let whole := e.toNat + 1
    let padded := kept ++ List.replicate (whole - kept.length) '0'
    ∃ s : Spelling, s.text = signText negative ++ (padded.take whole ++
        '.' :: (if (padded.drop whole).isEmpty then ['0'] else padded.drop whole)) ∧ s.places ≠ [] ∧
      ∃ zeros : ℕ, s.decimal =
        ⟨negative, Nat.ofDigitChars 10 kept 0 * 10 ^ zeros, e + 1 - kept.length - zeros⟩ := by
  intro whole padded
  have hwhole : (padded.take whole) ≠ [] := by simp [padded, whole, hne]
  have hpadded : ∀ c ∈ padded, c.isDigit = true := fun c hc =>
    (List.mem_append.mp hc).elim (hdigit c) (isDigit_of_mem_zeros c)
  generalize hplaces : (if (padded.drop whole).isEmpty then ['0'] else padded.drop whole) = places
  have hplaces_ne : places ≠ [] := by
    rw [← hplaces]
    split_ifs with h
    · simp
    · simpa using h
  have hplaces_digit : ∀ c ∈ places, c.isDigit = true := by
    rw [← hplaces]
    split_ifs
    · simp
    · exact fun c hc => hpadded c (List.mem_of_mem_drop hc)
  refine ⟨⟨negative, padded.take whole, places, none, hwhole,
    fun c hc => hpadded c (List.mem_of_mem_take hc), hplaces_digit⟩, ?_, hplaces_ne, ?_⟩
  · simp [Spelling.text, Spelling.fraction, Spelling.tail, hplaces_ne]
  · obtain ⟨zeros, hvalue, hlength⟩ := exists_padded_value kept whole
    have hexponent : (0 : ℤ) - places.length = e + 1 - kept.length - zeros := by
      rw [hplaces] at hlength
      simp only [whole] at hlength
      omega
    rw [hplaces] at hvalue
    exact ⟨zeros, by rw [Spelling.decimal, hvalue, Option.getD_none, hexponent]⟩

/-- A number with an exponent: the first digit, the others behind a point, and the exponent. -/
theorem exists_spelling_exponent (negative : Bool) (e : ℤ) :
    ∃ s : Spelling, s.text = signText negative ++ (kept.take 1 ++
        (if (kept.drop 1).isEmpty then [] else '.' :: kept.drop 1) ++ 'e' :: exponentText e) ∧
      s.exponent? ≠ none ∧
      s.decimal = ⟨negative, Nat.ofDigitChars 10 kept 0, e + 1 - kept.length⟩ := by
  refine ⟨⟨negative, kept.take 1, kept.drop 1, some e, by simpa using hne,
    fun c hc => hdigit c (List.mem_of_mem_take hc),
    fun c hc => hdigit c (List.mem_of_mem_drop hc)⟩, ?_, by simp, ?_⟩
  · simp [Spelling.text, Spelling.fraction, Spelling.tail]
  · have hlength := List.length_pos_of_ne_nil hne
    have hexponent : e - ((kept.drop 1).length : ℤ) = e + 1 - kept.length := by
      rw [List.length_drop]
      omega
    rw [Spelling.decimal, List.take_append_drop, Option.getD_some, hexponent]

end Bodies

/-- The text of a number in any layout is that of a spelling of a number with the same nearest
    float. It is not spelled as an integer. -/
theorem exists_spelling (layout : FloatLayout) (d : Decimal) : ∃ s : Spelling,
    s.text = d.layOut layout ∧ (s.places ≠ [] ∨ s.exponent? ≠ none) ∧
      s.decimal.toBinary64? = d.toBinary64? := by
  obtain ⟨kept, e, hlead, hne, hdigit, hsame⟩ := d.exists_significand
  simp only [layOut, hlead]
  by_cases hplain : layout.plainFrom ≤ e ∧ e < layout.plainBelow
  · rw [if_pos hplain]
    by_cases hbelow : e < 0
    · obtain ⟨s, htext, hplaces, hdecimal⟩ := exists_spelling_below hne hdigit d.negative hbelow
      rw [if_pos hbelow]
      exact ⟨s, htext, .inl hplaces, by simpa [hdecimal] using hsame 0⟩
    · obtain ⟨s, htext, hplaces, zeros, hdecimal⟩ :=
        exists_spelling_plain hne hdigit d.negative (Int.not_lt.mp hbelow)
      rw [if_neg hbelow]
      exact ⟨s, htext, .inl hplaces, hdecimal ▸ hsame zeros⟩
  · obtain ⟨s, htext, hexponent, hdecimal⟩ := exists_spelling_exponent hne hdigit d.negative e
    rw [if_neg hplain]
    exact ⟨s, htext, .inr hexponent, by simpa [hdecimal] using hsame 0⟩

end Decimal

/-- A float is read from its own text. -/
theorem Binary64.ofText?_toText (x : Binary64) : Binary64.ofText? x.toText = some x := by
  obtain ⟨s, htext, -, hsame⟩ := x.shortest.exists_spelling .standard
  rw [toText, ← htext, Binary64.ofText?, Decimal.Spelling.ofText?_text, Option.bind_some, hsame,
    shortest_reads_back]

/-- The text of a float is not that of an integer. -/
theorem readInt?_toText (x : Binary64) : readInt? x.toText = none := by
  obtain ⟨s, htext, hfloat, -⟩ := x.shortest.exists_spelling .standard
  rw [Binary64.toText, ← htext, Decimal.Spelling.readInt?_text hfloat]

/-- A number is read from its own text: an integer of 64 bits or a finite float. -/
theorem JsonNumber.ofText?_toText {n : JsonNumber} (h : ∀ i, n = .int i → fits i = true) :
    ofText? n.toText = some n := by
  cases n with
  | int i => simp only [ofText?, toText, readInt?_toString, h i rfl, if_true]
  | float x =>
    simp only [ofText?, toText, String.toList_ofList, readInt?_toText, Binary64.ofText?_toText,
      Option.map_some]

end TableClient
