import Mathlib
import TableClient.Json.Printer
import TableClient.Json.Reader
import TableClient.Proofs.Json.Canonical
import TableClient.Proofs.Number.Spelling

/-!
# Compact texts are read back

A value without floats is read from its compact text, unless too many arrays and objects stand in
one another in it. The reader is run over the text: from the beginning of a value it comes to its
end if there is room for the value inside of what stands around it, and else to no end at all, in a
number of steps that is at most twice the number of characters.

Results:
* `readString?_escapes`: a string is read from its escapes.
* `Numeral.read?_toString`, `Numeral.value?_toString`: an integer is read from its text.
* `run_compact`: the reader goes from the beginning of the text of a value to its end.
* `written?_compact`: a value is read from its compact text exactly if it is not too deep.
-/

namespace TableClient

/-- The integers of 64 bits, and no floats. -/
def JsonNumber.Whole : JsonNumber → Prop
  | .int n => fits n = true
  | .float _ => False

namespace Json

/-! ## Strings -/

/-- A unicode escape that is not half of a pair is read on its own, whatever follows it. -/
theorem readString?_unicode {a b c d : Char} {unit : ℕ} (hunit : readHex? a b c d = some unit)
    (hplain : unit < 0xD800) (done rest : List Char) :
    readString? done ('\\' :: 'u' :: a :: b :: c :: d :: rest) =
      readString? (Char.ofNat unit :: done) rest := by
  have hhigh : ¬ (0xD800 ≤ unit ∧ unit < 0xDC00) := by omega
  have hlow : ¬ (0xDC00 ≤ unit ∧ unit < 0xE000) := by omega
  have hhalf : ¬ (0xD800 ≤ unit ∧ unit < 0xE000) := by omega
  by_cases hpair : ∃ e f g h more, rest = '\\' :: 'u' :: e :: f :: g :: h :: more
  · obtain ⟨e, f, g, h, more, rfl⟩ := hpair
    rw [readString?]
    simp only [hunit, if_neg hhigh, if_neg hlow]
  · rw [readString?]
    · simp only [hunit, if_neg hhalf]
    · exact fun e f g h more heq => hpair ⟨e, f, g, h, more, heq⟩

/-- The other escapes are one character long. -/
theorem readString?_short {letter c : Char} (hletter : unescape? letter = some c)
    (done rest : List Char) :
    readString? done ('\\' :: letter :: rest) = readString? (c :: done) rest := by
  have hne : letter ≠ 'u' := by
    rintro rfl
    exact absurd hletter (by simp [unescape?])
  rw [readString?]
  · simp only [hletter]
  all_goals exact fun _ _ _ _ => by intros; contradiction

/-- A character that needs no escape is read as itself. -/
theorem readString?_plain {c : Char} (hquote : c ≠ '"') (hslash : c ≠ '\\') (h : 0x20 ≤ c.toNat)
    (done rest : List Char) : readString? done (c :: rest) = readString? (c :: done) rest := by
  rw [readString?]
  · rw [if_neg (by omega)]
  · exact hquote
  all_goals intros; exact hslash ‹_›

theorem readHex?_control {n : ℕ} (h : n < 0x20) :
    readHex? '0' '0' (Nat.digitChar (n / 16)) (Nat.digitChar (n % 16)) = some n := by
  have hvalue : ∀ n < 16, hexValue? (Nat.digitChar n) = some n := by decide
  have hzero : hexValue? '0' = some 0 := by decide
  simp only [readHex?, hzero, hvalue _ (by omega : n / 16 < 16), hvalue _ (by omega : n % 16 < 16)]
  simp
  omega

theorem unescape?_of_lookup {c letter : Char} (h : shortEscapes.lookup c = some letter) :
    unescape? letter = some c := by
  have hall : ∀ p ∈ shortEscapes, unescape? p.2 = some p.1 := by decide
  obtain ⟨before, after, hsplit, -⟩ := List.lookup_eq_some_iff.mp h
  exact hall (c, letter) (by rw [hsplit]; simp)

/-- The escape of a character is read as the character. -/
theorem readString?_escape (c : Char) (done rest : List Char) :
    readString? done (escape c ++ rest) = readString? (c :: done) rest := by
  unfold escape
  split_ifs with hquote hslash hcontrol
  · exact readString?_short (by rw [hquote]; rfl) done rest
  · exact readString?_short (by rw [hslash]; rfl) done rest
  · cases hshort : shortEscapes.lookup c with
    | some letter => exact readString?_short (unescape?_of_lookup hshort) done rest
    | none =>
      have hread := readString?_unicode (readHex?_control hcontrol) (by omega) done rest
      rwa [Char.ofNat_toNat] at hread
  · exact readString?_plain hquote hslash (by omega) done rest

/-- A string is read from its text. -/
theorem readString?_escapes (text done rest : List Char) :
    readString? done (text.flatMap escape ++ '"' :: rest) =
      some (String.ofList (done.reverse ++ text), rest) := by
  induction text generalizing done with
  | nil => simp [readString?]
  | cons c text ih =>
    rw [List.flatMap_cons, List.append_assoc, readString?_escape, ih]
    simp

theorem readString?_quoted (s : String) (rest : List Char) :
    readString? [] (s.toList.flatMap escape ++ '"' :: rest) = some (s, rest) := by
  rw [readString?_escapes]
  simp

/-! ## Integers -/

/-- What follows a value does not go on with a number. -/
def Ended (rest : List Char) : Prop :=
  ∀ c ∈ rest.head?, c.isDigit = false ∧ c ≠ '.' ∧ c ≠ 'e' ∧ c ≠ 'E'

theorem ended_nil : Ended [] := by simp [Ended]

theorem toDigits_head?_ne_zero {n : ℕ} (hn : n ≠ 0) : (Nat.toDigits 10 n).head? ≠ some '0' := by
  induction n using Nat.strong_induction_on with
  | _ n ih =>
    by_cases hsmall : n < 10
    · rw [Nat.toDigits_of_lt_base hsmall]
      simpa using hn
    · rw [Nat.toDigits_of_base_le (by decide) (Nat.le_of_not_lt hsmall),
        List.head?_append_of_ne_nil _ Nat.toDigits_ne_nil]
      exact ih (n / 10) (by omega) (by omega)

namespace Numeral

variable {rest : List Char}

theorem readWhole?_toDigits (n : ℕ) (h : Ended rest) :
    readWhole? (Nat.toDigits 10 n ++ rest) = some (Nat.toDigits 10 n, rest) := by
  have hspan := takeWhile_isDigit (isDigit_toDigits n) fun c hc => (h c hc).1
  by_cases hn : n = 0
  · subst hn
    rfl
  · have hne : (Nat.toDigits 10 n).isEmpty = false := by simp [Nat.toDigits_ne_nil]
    rw [readWhole?]
    · simp only [hspan, hne, Bool.false_eq_true, if_false]
    · intro more heq
      have hhead := congrArg List.head? heq
      rw [List.head?_append_of_ne_nil _ Nat.toDigits_ne_nil] at hhead
      exact toDigits_head?_ne_zero hn hhead

theorem readPlaces?_ended (h : Ended rest) : readPlaces? rest = some ([], rest) := by
  rw [readPlaces?]
  rintro more rfl
  exact (h '.' rfl).2.1 rfl

theorem readExponent?_ended (h : Ended rest) : readExponent? rest = some (none, rest) := by
  cases rest with
  | nil => rfl
  | cons c rest =>
    obtain ⟨-, -, he, hE⟩ := h c rfl
    rw [readExponent?, if_neg (by simp [he, hE])]

/-- An integer is read from its text. -/
theorem read?_toString (n : ℤ) (h : Ended rest) :
    read? ((toString n).toList ++ rest) =
      some (⟨decide (n < 0), Nat.toDigits 10 n.natAbs, [], none⟩, rest) := by
  have hwhole := readWhole?_toDigits n.natAbs h
  obtain ⟨c, digits, hdigits, hc⟩ := exists_toDigits_eq_cons n.natAbs
  rw [toList_toString, List.append_assoc]
  by_cases hn : n < 0
  · rw [decide_eq_true hn, signText, if_pos rfl, List.singleton_append, read?]
    simp [hwhole, readPlaces?_ended h, readExponent?_ended h]
  · have hminus : c ≠ '-' := by rintro rfl; contradiction
    rw [decide_eq_false hn, signText, if_neg (by decide), List.nil_append, read?]
    · simp [hwhole, readPlaces?_ended h, readExponent?_ended h]
    · rw [hdigits]
      exact fun more heq => hminus (List.cons.inj heq).1

/-- Digits that make up a number of 64 bits are taken, all of them. -/
theorem takeDigits_eq (digits : List Char) {n : ℕ}
    (h : Nat.ofDigitChars 10 digits n < 0x10000000000000000) :
    takeDigits n digits = (Nat.ofDigitChars 10 digits n, []) := by
  induction digits generalizing n with
  | nil => rfl
  | cons c digits ih =>
    rw [Nat.ofDigitChars_cons] at h ⊢
    have hnext : 10 * n + (c.toNat - '0'.toNat) < 0x10000000000000000 := by
      refine lt_of_le_of_lt ?_ h
      rw [Nat.ofDigitChars_eq_ofDigitChars_zero]
      exact Nat.le_add_right_of_le (Nat.le_mul_of_pos_left _ (by positivity))
    rw [takeDigits, if_pos hnext]
    exact ih h

theorem value?_toString {n : ℤ} (h : JsonNumber.fits n = true) :
    value? ⟨decide (n < 0), Nat.toDigits 10 n.natAbs, [], none⟩ = some (.int n) := by
  have hbounds : -0x8000000000000000 ≤ n ∧ n < 0x10000000000000000 := by
    simpa [JsonNumber.fits] using h
  have htake : takeDigits 0 (Nat.toDigits 10 n.natAbs) = (n.natAbs, []) := by
    rw [takeDigits_eq] <;> rw [Nat.ofDigitChars_ten_toDigits]
    omega
  have hzero : ¬ (decide (n < 0) = true ∧ n.natAbs = 0) := by
    rw [decide_eq_true_iff]
    omega
  have hvalue : (if decide (n < 0) = true then -(n.natAbs : ℤ) else n.natAbs) = n := by
    simp only [decide_eq_true_iff]
    split <;> omega
  simp only [value?, toInt?, htake, if_neg hzero, hvalue, Option.filter, h]
  rfl

end Numeral

/-! ## Values -/

/-- The values that read back from their text: no floats, and integers of 64 bits. -/
abbrev Plain : Json → Prop := EveryNumber JsonNumber.Whole

/-- Every item is plain. -/
abbrev PlainItems : List Json → Prop := EveryNumberItems JsonNumber.Whole

/-- The value of every field is plain. -/
abbrev PlainFields : List (String × Json) → Prop := EveryNumberFields JsonNumber.Whole

mutual

/-- The steps that the reader takes from the beginning of the text of a value to its end. -/
def steps : Json → ℕ
  | .array items => 1 + stepsItems items
  | .object fields => 1 + stepsFields fields
  | _ => 1

/-- The steps for the items of an array. -/
def stepsItems : List Json → ℕ
  | [] => 0
  | item :: items => steps item + 1 + stepsItems items

/-- The steps for the fields of an object. -/
def stepsFields : List (String × Json) → ℕ
  | [] => 0
  | (_, value) :: fields => steps value + 1 + stepsFields fields

end

/-- An item behind another one. -/
def nextItem (item : Json) : List Char := ',' :: item.compact.toList

/-- The name of a field, as it stands in front of the value. -/
def nameText (name : String) : List Char := '"' :: (name.toList.flatMap escape ++ ['"', ':'])

/-- A field behind another one. -/
def nextField (field : String × Json) : List Char :=
  ',' :: (nameText field.1 ++ field.2.compact.toList)

theorem toList_compact_string (s : String) :
    (string s).compact.toList = '"' :: (s.toList.flatMap escape ++ ['"']) := by
  simp [compact, quoted]

theorem toList_compact_array (items : List Json) :
    (array items).compact.toList = '[' :: ((compactItems items).toList ++ [']']) := by
  simp [compact]

theorem toList_compact_object (fields : List (String × Json)) :
    (object fields).compact.toList = '\x7b' :: ((compactFields fields).toList ++ ['\x7d']) := by
  simp [compact]

theorem toList_compactItems (item : Json) (items : List Json) :
    (compactItems (item :: items)).toList = item.compact.toList ++ items.flatMap nextItem := by
  induction items generalizing item with
  | nil => simp [compactItems]
  | cons next items ih =>
    rw [compactItems, String.toList_append, String.toList_append, ih next]
    · simp [nextItem]
    · simp

theorem toList_compactFields (field : String × Json) (fields : List (String × Json)) :
    (compactFields (field :: fields)).toList =
      nameText field.1 ++ field.2.compact.toList ++ fields.flatMap nextField := by
  induction fields generalizing field with
  | nil => simp [compactFields, quoted, nameText]
  | cons next fields ih =>
    obtain ⟨name, value⟩ := field
    rw [compactFields]
    · simp [ih, quoted, nameText, nextField]
    · simp

theorem startValue?_numeral {c : Char} (h : c.isDigit = true ∨ c = '-') (more : List Char)
    (outer : List Reading) : startValue? (c :: more) outer =
      (do
        let (numeral, rest) ← Numeral.read? (c :: more)
        return .finish (.number (← numeral.value?)) rest outer) := by
  have hne : ∀ d : Char, d.isDigit = false → d ≠ '-' → c ≠ d := by
    rintro d hd hminus rfl
    exact h.elim (fun h => by simp [h] at hd) hminus
  have hskip : skipBlanks (c :: more) = c :: more := by
    have hblank : isJsonBlank c = false := by
      simp [isJsonBlank, hne ' ' (by decide) (by decide), hne '\t' (by decide) (by decide),
        hne '\n' (by decide) (by decide), hne '\r' (by decide) (by decide)]
    simp [skipBlanks, hblank]
  rw [startValue?, hskip]
  split
  all_goals first
    | rfl
    | (rename_i heq; exact absurd (List.cons.inj heq).1 (hne _ (by decide) (by decide)))

/-- The text of an integer begins with a digit or a minus. -/
theorem toString_head (n : ℤ) :
    ∃ c more, (toString n).toList = c :: more ∧ (c.isDigit = true ∨ c = '-') := by
  obtain ⟨c, digits, hdigits, hc⟩ := exists_toDigits_eq_cons n.natAbs
  rw [toList_toString, hdigits]
  by_cases hn : n < 0
  · exact ⟨'-', c :: digits, by simp [signText, hn], .inr rfl⟩
  · exact ⟨c, digits, by simp [signText, hn], .inl hc⟩

/-- The text of a value begins with neither a blank nor the end of an array. -/
theorem compact_head {v : Json} (h : v.Plain) :
    ∃ c more, v.compact.toList = c :: more ∧ isJsonBlank c = false ∧ c ≠ ']' := by
  match v, h with
  | .null, _ => exact ⟨'n', _, rfl, by decide, by decide⟩
  | .bool true, _ => exact ⟨'t', _, rfl, by decide, by decide⟩
  | .bool false, _ => exact ⟨'f', _, rfl, by decide, by decide⟩
  | .number (.int n), _ =>
    obtain ⟨c, more, htext, hc⟩ := toString_head n
    refine ⟨c, more, htext, ?_, ?_⟩
    · rcases hc with hc | rfl
      · have hne : ∀ d : Char, d.isDigit = false → c ≠ d := by
          rintro d hd rfl
          simp [hc] at hd
        simp [isJsonBlank, hne ' ' (by decide), hne '\t' (by decide), hne '\n' (by decide),
          hne '\r' (by decide)]
      · decide
    · rcases hc with hc | rfl
      · rintro rfl
        exact absurd hc (by decide)
      · decide
  | .string s, _ => exact ⟨'"', _, toList_compact_string s, by decide, by decide⟩
  | .array items, _ => exact ⟨'[', _, toList_compact_array items, by decide, by decide⟩
  | .object fields, _ => exact ⟨'\x7b', _, toList_compact_object fields, by decide, by decide⟩

theorem skipBlanks_compact {v : Json} (h : v.Plain) (rest : List Char) :
    skipBlanks (v.compact.toList ++ rest) = v.compact.toList ++ rest := by
  obtain ⟨c, more, htext, hblank, -⟩ := compact_head h
  simp [skipBlanks, htext, hblank]

theorem readName?_nameText (name : String) (rest : List Char) :
    readName? (nameText name ++ rest) = some (name, rest) := by
  have hread := readString?_quoted name (':' :: rest)
  simp [readName?, nameText, skipBlanks, isJsonBlank, hread]

section Steps

variable {n : ℕ} {value : Json} {rest : List Char} {outer : List Reading}

theorem run_finish_item {done : List Json} :
    run (n + 1) (.finish value (',' :: rest) (.item done :: outer)) =
      run n (.start rest (.item (value :: done) :: outer)) := by
  rfl

theorem run_finish_array {done : List Json} :
    run (n + 1) (.finish value (']' :: rest) (.item done :: outer)) =
      run n (.finish (.array (value :: done).reverse) rest outer) := by
  rfl

theorem run_finish_value {done : List (String × Json)} {name next : String} :
    run (n + 1) (.finish value (',' :: (nameText next ++ rest)) (.value done name :: outer)) =
      run n (.start rest (.value ((name, value) :: done) next :: outer)) := by
  have hread := readName?_nameText next rest
  simp [run, finishValue?, skipBlanks, isJsonBlank, hread]

theorem run_finish_object {done : List (String × Json)} {name : String} :
    run (n + 1) (.finish value ('\x7d' :: rest) (.value done name :: outer)) =
      run n (.finish (.object ((name, value) :: done).reverse) rest outer) := by
  rfl

theorem run_start_empty_array :
    run (n + 1) (.start ('[' :: ']' :: rest) outer) =
      if outer.length < maxDepth then run n (.finish (.array []) rest outer) else none := by
  rw [run, startValue?]
  simp only [skipBlanks]
  split_ifs <;> rfl

theorem run_start_array {first : Json} (h : first.Plain) :
    run (n + 1) (.start ('[' :: (first.compact.toList ++ rest)) outer) =
      if outer.length < maxDepth then
        run n (.start (first.compact.toList ++ rest) (.item [] :: outer))
      else none := by
  have hskip := skipBlanks_compact h rest
  obtain ⟨c, more, htext, -, hend⟩ := compact_head h
  rw [run, startValue?]
  have hopen : skipBlanks ('[' :: (first.compact.toList ++ rest)) =
      '[' :: (first.compact.toList ++ rest) := rfl
  simp only [hopen, hskip]
  rw [htext]
  split_ifs
  · simp [hend]
  · rfl

theorem run_start_empty_object :
    run (n + 1) (.start ('\x7b' :: '\x7d' :: rest) outer) =
      if outer.length < maxDepth then run n (.finish (.object []) rest outer) else none := by
  rw [run, startValue?]
  simp only [skipBlanks]
  split_ifs <;> rfl

theorem run_start_object {name : String} :
    run (n + 1) (.start ('\x7b' :: (nameText name ++ rest)) outer) =
      if outer.length < maxDepth then run n (.start rest (.value [] name :: outer)) else none := by
  have hread := readName?_nameText name rest
  have hopen : skipBlanks ('\x7b' :: (nameText name ++ rest)) =
      '\x7b' :: (nameText name ++ rest) := rfl
  have hskip : skipBlanks (nameText name ++ rest) = nameText name ++ rest := rfl
  rw [run, startValue?]
  simp only [hopen, hskip]
  split_ifs
  · rw [nameText, List.cons_append] at hread ⊢
    change (Option.map _ (readName? ('"' :: _))).bind (run n) = _
    rw [hread]
    rfl
  · rfl

end Steps

/-! ## Texts that read back -/

theorem ended_comma (rest : List Char) : Ended (',' :: rest) := by
  rintro c ⟨⟩
  decide

theorem ended_array (rest : List Char) : Ended (']' :: rest) := by
  rintro c ⟨⟩
  decide

theorem ended_object (rest : List Char) : Ended ('\x7d' :: rest) := by
  rintro c ⟨⟩
  decide

theorem ended_items (items : List Json) (rest : List Char) :
    Ended (items.flatMap nextItem ++ ']' :: rest) := by
  cases items with
  | nil => exact ended_array rest
  | cons item items => exact ended_comma _

theorem ended_fields (fields : List (String × Json)) (rest : List Char) :
    Ended (fields.flatMap nextField ++ '\x7d' :: rest) := by
  cases fields with
  | nil => exact ended_object rest
  | cons field fields => exact ended_comma _

mutual

/-- The reader goes from the beginning of the text of a value to its end if there is room for it,
    and else to no end. -/
theorem run_compact : ∀ {v : Json}, v.Plain → ∀ {rest : List Char}, Ended rest →
    ∀ (n : ℕ) (outer : List Reading),
      run (n + v.steps) (.start (v.compact.toList ++ rest) outer) =
        if v.depth ≤ maxDepth - outer.length then run n (.finish v rest outer) else none
  | .null, _, rest, _, n, outer => (if_pos (Nat.zero_le _)).symm
  | .bool true, _, rest, _, n, outer => (if_pos (Nat.zero_le _)).symm
  | .bool false, _, rest, _, n, outer => (if_pos (Nat.zero_le _)).symm
  | .number (.int i), h, rest, hrest, n, outer => by
    obtain ⟨c, more, htext, hc⟩ := toString_head i
    have hread := Numeral.read?_toString i hrest
    have hvalue := Numeral.value?_toString h
    have hcompact : (number (.int i)).compact.toList ++ rest = c :: (more ++ rest) := by
      rw [compact, JsonNumber.toText, htext, List.cons_append]
    rw [htext, List.cons_append] at hread
    refine Eq.trans ?_ (if_pos (Nat.zero_le _)).symm
    change run (n + 1) _ = _
    rw [hcompact, run, startValue?_numeral hc, hread]
    simp [hvalue]
  | .string s, _, rest, _, n, outer => by
    have hread := readString?_quoted s rest
    refine Eq.trans ?_ (if_pos (Nat.zero_le _)).symm
    change run (n + 1) _ = _
    rw [toList_compact_string, run]
    simp [startValue?, skipBlanks, isJsonBlank, hread]
  | .array [], _, rest, _, n, outer =>
    run_start_empty_array.trans (if_congr (by simp only [depth, depthItems]; omega) rfl rfl)
  | .array (item :: items), h, rest, _, n, outer => by
    have hstart : (array (item :: items)).compact.toList ++ rest =
        '[' :: (item.compact.toList ++ (items.flatMap nextItem ++ ']' :: rest)) := by
      simp [toList_compact_array, toList_compactItems]
    have hsteps : n + (array (item :: items)).steps =
        n + (1 + stepsItems items) + item.steps + 1 := by
      rw [steps, stepsItems]
      omega
    rw [hstart, hsteps, run_start_array h.1, run_compact h.1 (ended_items items rest),
      List.length_cons, run_items h.2, ← ite_and, ← ite_and]
    exact if_congr (by simp only [depth, depthItems]; omega) rfl rfl
  | .object [], _, rest, _, n, outer =>
    run_start_empty_object.trans (if_congr (by simp only [depth, depthFields]; omega) rfl rfl)
  | .object ((name, value) :: fields), h, rest, _, n, outer => by
    have hstart : (object ((name, value) :: fields)).compact.toList ++ rest =
        '\x7b' :: (nameText name ++
          (value.compact.toList ++ (fields.flatMap nextField ++ '\x7d' :: rest))) := by
      simp [toList_compact_object, toList_compactFields]
    have hsteps : n + (object ((name, value) :: fields)).steps =
        n + (1 + stepsFields fields) + value.steps + 1 := by
      rw [steps, stepsFields]
      omega
    rw [hstart, hsteps, run_start_object, run_compact h.1 (ended_fields fields rest),
      List.length_cons, run_fields h.2, ← ite_and, ← ite_and]
    exact if_congr (by simp only [depth, depthFields]; omega) rfl rfl

/-- The reader goes on from the end of an item to the end of the array, if there is room for the
    other items. -/
theorem run_items : ∀ {items : List Json}, PlainItems items → ∀ (n : ℕ) (last : Json)
    (done : List Json) (rest : List Char) (outer : List Reading),
      run (n + (1 + stepsItems items))
          (.finish last (items.flatMap nextItem ++ ']' :: rest) (.item done :: outer)) =
        if depthItems items ≤ maxDepth - (outer.length + 1) then
          run n (.finish (.array (done.reverse ++ last :: items)) rest outer)
        else none
  | [], _, n, last, done, rest, outer => by
    rw [stepsItems, List.flatMap_nil, List.nil_append, Nat.add_zero, run_finish_array,
      List.reverse_cons]
    exact (if_pos (Nat.zero_le _)).symm
  | item :: items, h, n, last, done, rest, outer => by
    have hsteps : n + (1 + stepsItems (item :: items)) =
        n + (1 + stepsItems items) + item.steps + 1 := by
      rw [stepsItems]
      omega
    rw [hsteps, List.flatMap_cons, nextItem, List.append_assoc, List.cons_append, run_finish_item,
      run_compact h.1 (ended_items items rest), List.length_cons, run_items h.2, ← ite_and,
      List.reverse_cons, List.append_assoc]
    exact if_congr max_le_iff.symm rfl rfl

/-- The reader goes on from the end of a field to the end of the object, if there is room for the
    other fields. -/
theorem run_fields : ∀ {fields : List (String × Json)}, PlainFields fields → ∀ (n : ℕ)
    (last : Json) (done : List (String × Json)) (name : String) (rest : List Char)
    (outer : List Reading),
      run (n + (1 + stepsFields fields))
          (.finish last (fields.flatMap nextField ++ '\x7d' :: rest) (.value done name :: outer)) =
        if depthFields fields ≤ maxDepth - (outer.length + 1) then
          run n (.finish (.object (done.reverse ++ (name, last) :: fields)) rest outer)
        else none
  | [], _, n, last, done, name, rest, outer => by
    rw [stepsFields, List.flatMap_nil, List.nil_append, Nat.add_zero, run_finish_object,
      List.reverse_cons]
    exact (if_pos (Nat.zero_le _)).symm
  | (next, value) :: fields, h, n, last, done, name, rest, outer => by
    have hsteps : n + (1 + stepsFields ((next, value) :: fields)) =
        n + (1 + stepsFields fields) + value.steps + 1 := by
      rw [stepsFields]
      omega
    rw [hsteps, List.flatMap_cons, nextField, List.append_assoc, List.cons_append,
      List.append_assoc, run_finish_value, run_compact h.1 (ended_fields fields rest),
      List.length_cons, run_fields h.2, ← ite_and, List.reverse_cons, List.append_assoc]
    exact if_congr max_le_iff.symm rfl rfl

end

mutual

/-- A value has at most two steps for each character of its text. -/
theorem steps_le : ∀ {v : Json}, v.Plain → v.steps ≤ 2 * v.compact.toList.length
  | .null, _ | .bool true, _ | .bool false, _ => by decide
  | .number (.int n), _ => by
    obtain ⟨c, more, htext, -⟩ := toString_head n
    have hlength : 1 ≤ (number (.int n)).compact.toList.length := by
      rw [compact, JsonNumber.toText, htext]
      exact Nat.le_add_left 1 _
    change 1 ≤ _
    omega
  | .string s, _ => by
    rw [toList_compact_string]
    simp [steps]
    omega
  | .array [], _ => by decide
  | .array (item :: items), h => by
    have hitem := steps_le h.1
    have hitems := stepsItems_le h.2
    rw [toList_compact_array, toList_compactItems, steps, stepsItems]
    simp only [List.length_cons, List.length_append]
    omega
  | .object [], _ => by decide
  | .object ((name, value) :: fields), h => by
    have hvalue := steps_le h.1
    have hfields := stepsFields_le h.2
    rw [toList_compact_object, toList_compactFields, steps, stepsFields]
    simp only [List.length_cons, List.length_append]
    omega

theorem stepsItems_le : ∀ {items : List Json}, PlainItems items →
    stepsItems items ≤ 2 * (items.flatMap nextItem).length
  | [], _ => by decide
  | item :: items, h => by
    have hitem := steps_le h.1
    have hitems := stepsItems_le h.2
    rw [stepsItems, List.flatMap_cons, nextItem]
    simp only [List.length_cons, List.length_append]
    omega

theorem stepsFields_le : ∀ {fields : List (String × Json)}, PlainFields fields →
    stepsFields fields ≤ 2 * (fields.flatMap nextField).length
  | [], _ => by decide
  | (name, value) :: fields, h => by
    have hvalue := steps_le h.1
    have hfields := stepsFields_le h.2
    rw [stepsFields, List.flatMap_cons, nextField]
    simp only [List.length_cons, List.length_append]
    omega

end

/-- A value is read from its compact text, unless it is too deep. -/
theorem written?_compact {v : Json} (h : v.Plain) :
    written? v.compact.toList = if v.depth ≤ maxDepth then some v else none := by
  have hsteps := steps_le h
  obtain ⟨n, hn⟩ : ∃ n, 2 * v.compact.toList.length + 2 = n + 1 + v.steps :=
    ⟨2 * v.compact.toList.length + 1 - v.steps, by omega⟩
  have hread := run_compact h ended_nil (n + 1) []
  rw [List.append_nil] at hread
  rw [written?, hn, hread]
  rfl

end Json

end TableClient
