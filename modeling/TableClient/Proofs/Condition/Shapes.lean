import Mathlib
import TableClient.Proofs.Condition.Grammar

/-!
# Reading tests

Which texts are read as a given test. A comparison and a range are read from the one text they are
written as. A list of values and a call may also have blanks around their arguments, and none
behind a comma.

Results:
* `findCall?_operand`: what starts with an operand and a space is no call.
* `readShape_eq_ok_iff`: the texts that have the parts of a test.
* `Test.Valid.spelled_write`: the text that a test is written as is one of them.
-/

namespace TableClient.Condition

open Text

/-! ## Operands and functions -/

theorem Operand.chars {operand : Operand} (h : operand.path.Valid) :
    ∀ c ∈ operand.write String.toList, isBlank c = false ∧ c ≠ ',' ∧ c ≠ '#' := by
  have hpath : ∀ c ∈ operand.path.write String.toList, isBlank c = false ∧ c ≠ ',' ∧ c ≠ '#' := by
    intro c hc
    obtain ⟨hdelimiter, hsign⟩ := h.chars c hc
    rw [isDelimiter_eq_false_iff] at hdelimiter
    exact ⟨hdelimiter.1, hdelimiter.2.2.2, hsign⟩
  intro c hc
  rw [Operand.write] at hc
  split_ifs at hc
  · rcases List.mem_append.mp hc with hc | hc
    · rcases List.mem_append.mp hc with hc | hc
      · have hsize : "size(".toList = ['s', 'i', 'z', 'e', '('] := rfl
        rw [hsize] at hc
        fin_cases hc <;> decide
      · exact hpath c hc
    · obtain rfl := List.mem_singleton.mp hc
      decide
  · exact hpath c hc

theorem Operand.space_not_mem {operand : Operand} (h : operand.path.Valid) :
    ' ' ∉ operand.write String.toList := by
  intro hmem
  have hblank := (Operand.chars h ' ' hmem).1
  rw [isBlank_space] at hblank
  contradiction

theorem BuiltIn.name_injective {f g : BuiltIn} (h : f.name.toList = g.name.toList) : f = g := by
  revert h
  cases f <;> cases g <;> decide

theorem BuiltIn.name_chars (function : BuiltIn) :
    function.name.toList ≠ [] ∧ ∀ c ∈ function.name.toList, isWordChar c = true := by
  cases function <;> simp [BuiltIn.name, isWordChar, Char.isAlphanum, Char.isAlpha]

theorem BuiltIn.paren_not_mem_name (function : BuiltIn) : '(' ∉ function.name.toList := by
  cases function <;> decide

theorem callArguments?_eq_some_iff {text inner : List Char} {function : BuiltIn} :
    callArguments? text function = some inner ↔
      text = function.name.toList ++ '(' :: (inner ++ [')']) := by
  simp only [callArguments?, Option.bind_eq_some_iff, dropLeading?_eq_some_iff,
    dropTrailing?_eq_some_iff]
  constructor
  · rintro ⟨_, ⟨_, rfl, rfl⟩, rfl⟩
    rfl
  · rintro rfl
    exact ⟨_, ⟨_, rfl, rfl⟩, rfl⟩

/-- A text calls at most one function. -/
theorem findCall?_eq_some_iff {text inner : List Char} {function : BuiltIn} :
    findCall? text = some (function, inner) ↔
      text = function.name.toList ++ '(' :: (inner ++ [')']) := by
  have hunique : ∀ {g : BuiltIn} {other : List Char}, callArguments? text g = some other →
      text = function.name.toList ++ '(' :: (inner ++ [')']) → g = function ∧ other = inner := by
    intro g other hg htext
    rw [callArguments?_eq_some_iff.mp hg] at htext
    obtain ⟨hname, hinner⟩ :=
      append_mark_inj g.paren_not_mem_name function.paren_not_mem_name htext
    exact ⟨BuiltIn.name_injective hname, List.append_cancel_right hinner⟩
  rw [findCall?]
  constructor
  · intro h
    obtain ⟨g, -, hg⟩ := List.exists_of_findSome?_eq_some h
    rw [Option.map_eq_some_iff] at hg
    obtain ⟨other, hother, heq⟩ := hg
    obtain ⟨rfl, rfl⟩ := Prod.mk.inj heq
    exact callArguments?_eq_some_iff.mp hother
  · intro htext
    cases hfound : BuiltIn.all.findSome? fun g =>
        (callArguments? text g).map fun inner => (g, inner) with
    | none =>
      rw [List.findSome?_eq_none_iff] at hfound
      have hnone := hfound function (BuiltIn.mem_all function)
      rw [callArguments?_eq_some_iff.mpr htext] at hnone
      contradiction
    | some found =>
      obtain ⟨g, -, hg⟩ := List.exists_of_findSome?_eq_some hfound
      rw [Option.map_eq_some_iff] at hg
      obtain ⟨other, hother, rfl⟩ := hg
      obtain ⟨rfl, rfl⟩ := hunique hother htext
      rfl

/-- What starts with an operand and a space is no call. -/
theorem findCall?_operand {operand : Operand} (h : operand.path.Valid) (rest : List Char) :
    findCall? (operand.write String.toList ++ ' ' :: rest) = none := by
  refine Option.eq_none_iff_forall_ne_some.mpr ?_
  rintro ⟨function, inner⟩ hcall
  have htext := findCall?_eq_some_iff.mp hcall
  have hspace : ' ' ∉ function.name.toList ++ ['('] := by cases function <;> decide
  rw [← List.singleton_append (l := inner ++ [')']), ← List.append_assoc] at htext
  obtain ⟨middle, hmiddle⟩ := prefix_of_append_mark hspace htext.symm
  rw [List.append_assoc, List.singleton_append, Operand.write] at hmiddle
  split_ifs at hmiddle with hsized
  · have hsize : "size(".toList ++ operand.path.write String.toList ++ [')'] =
        "size".toList ++ '(' :: (operand.path.write String.toList ++ [')']) := rfl
    rw [hsize] at hmiddle
    have hname := (append_mark_inj function.paren_not_mem_name (by decide) hmiddle).1
    revert hname
    cases function <;> decide
  · have hparen := (h.chars '(' (by rw [← hmiddle]; simp)).1
    rw [isDelimiter_eq_false_iff] at hparen
    exact absurd rfl hparen.2.1

/-! ## The parts of a test -/

theorem readBetween?_eq_some_iff {text : List Char} {raw : RawTest} :
    readBetween? text = some raw ↔ ∃ operand low high,
      split ' ' text = [operand, "BETWEEN".toList, low, "AND".toList, high] ∧
        raw = .between operand low high := by
  rw [readBetween?]
  constructor
  · intro h
    split at h
    · rename_i operand first low second high hsplit
      split_ifs at h with hwords
      obtain ⟨rfl, rfl⟩ := hwords
      exact ⟨operand, low, high, hsplit, (Option.some.inj h).symm⟩
    · contradiction
  · rintro ⟨operand, low, high, hsplit, rfl⟩
    rw [hsplit]
    simp

theorem readComparison?_eq_some_iff {text : List Char} {raw : RawTest} :
    readComparison? text = some raw ↔ ∃ operand comparator value,
      split ' ' text = [operand, comparator.sign.toList, value] ∧
        raw = .compare operand comparator value := by
  rw [readComparison?]
  constructor
  · intro h
    split at h
    · rename_i operand sign value hsplit
      obtain ⟨comparator, hfound, rfl⟩ := Option.map_eq_some_iff.mp h
      have hsign := List.find?_some hfound
      simp only [decide_eq_true_eq] at hsign
      exact ⟨operand, comparator, value, hsign ▸ hsplit, rfl⟩
    · contradiction
  · rintro ⟨operand, comparator, value, hsplit, rfl⟩
    rw [hsplit]
    simp only [Option.map_eq_some_iff]
    refine ⟨comparator, ?_, rfl⟩
    cases comparator <;> decide

theorem readMembership?_eq_some_iff {text : List Char} {raw : RawTest} :
    readMembership? text = some raw ↔ ∃ operand inner, ' ' ∉ operand ∧
      text = operand ++ " IN (".toList ++ inner ++ [')'] ∧
        raw = .oneOf operand ((split ',' inner).map trim) := by
  rw [readMembership?]
  simp only [Option.map_eq_some_iff, Option.bind_eq_some_iff, dropLeading?_eq_some_iff,
    dropTrailing?_eq_some_iff]
  constructor
  · rintro ⟨inner, ⟨rest, hrest, rfl⟩, rfl⟩
    refine ⟨text.takeWhile (· != ' '), inner, ?_, ?_, rfl⟩
    · intro hmem
      simpa using List.mem_takeWhile_imp hmem
    · rw [List.append_assoc, List.append_assoc, ← hrest, List.takeWhile_append_dropWhile]
  · rintro ⟨operand, inner, hspace, rfl, rfl⟩
    have hoperand : ∀ c ∈ operand, (c != ' ') = true := by
      intro c hc
      simp only [bne_iff_ne, ne_eq]
      rintro rfl
      exact hspace hc
    have htext : operand ++ " IN (".toList ++ inner ++ [')'] =
        operand ++ ' ' :: ("IN (".toList ++ (inner ++ [')'])) := by
      simp
    have htake : (operand ++ " IN (".toList ++ inner ++ [')']).takeWhile (· != ' ') = operand := by
      rw [htext, List.takeWhile_append_of_pos hoperand]
      simp
    have hdrop : (operand ++ " IN (".toList ++ inner ++ [')']).dropWhile (· != ' ') =
        " IN (".toList ++ (inner ++ [')']) := by
      rw [htext, List.dropWhile_append_of_pos hoperand]
      rfl
    exact ⟨inner, ⟨inner ++ [')'], hdrop, rfl⟩, by rw [htake]⟩

/-! ## Tests -/

/-- Whether a test of a shape can have a number of values. -/
def Shape.Takes : Shape → Nat → Prop
  | .comparison, count => count = 1
  | .between, count => count = 2
  | .membership, count => 0 < count
  | .call function, count => count + 1 = function.arity

instance (shape : Shape) (count : Nat) : Decidable (shape.Takes count) :=
  match shape with
  | .comparison => inferInstanceAs (Decidable (count = 1))
  | .between => inferInstanceAs (Decidable (count = 2))
  | .membership => inferInstanceAs (Decidable (0 < count))
  | .call function => inferInstanceAs (Decidable (count + 1 = function.arity))

/-- A test that can be written. -/
structure Test.Valid (test : Test) : Prop where
  path : test.path.Valid
  values : ∀ value ∈ test.values, isPlaceholder value.toList = true
  count : test.shape.Takes test.values.length

instance (test : Test) : Decidable test.Valid :=
  decidable_of_iff (test.path.Valid ∧ (∀ value ∈ test.values, isPlaceholder value.toList = true) ∧
      test.shape.Takes test.values.length)
    ⟨fun h => ⟨h.1, h.2.1, h.2.2⟩, fun h => ⟨h.path, h.values, h.count⟩⟩

/-- Whether a text is a test: as the test is written, but for the blanks around the values of a
    list and the arguments of a call. -/
def Test.Spelled (text : List Char) : Test → Prop
  | .oneOf operand values =>
    ∃ inner, text = operand.write String.toList ++ " IN (".toList ++ inner ++ [')'] ∧
      (split ',' inner).map trim = values.map String.toList
  | .call function path value? =>
    ∃ inner, text = function.name.toList ++ '(' :: (inner ++ [')']) ∧
      (split ',' inner).map trim = path.write String.toList :: value?.toList.map String.toList
  | test => text = test.write String.toList

/-- The word that a test starts with: its operand, or the name of the function. -/
def Test.lead : Test → List Char
  | .compare operand _ _ | .between operand _ _ | .oneOf operand _ => operand.write String.toList
  | .call function _ _ => function.name.toList

/-- What stands between the first word of a test and the rest. -/
def Test.link : Test → Char
  | .call .. => '('
  | _ => ' '

theorem Test.Spelled.eq_lead_append {test : Test} {text : List Char} (h : test.Spelled text) :
    ∃ rest, text = test.lead ++ test.link :: rest := by
  cases test with
  | compare =>
    exact ⟨_, by rw [show text = _ from h, Test.write, List.append_assoc]; rfl⟩
  | between =>
    exact ⟨_, by rw [show text = _ from h, Test.write]; simp only [List.append_assoc]; rfl⟩
  | oneOf =>
    obtain ⟨inner, rfl, -⟩ := h
    exact ⟨_, by simp only [List.append_assoc]; rfl⟩
  | call =>
    obtain ⟨inner, rfl, -⟩ := h
    exact ⟨_, rfl⟩

/-- What is spelled with an operand is no call. -/
theorem Test.Spelled.findCall?_eq_none {test : Test} {text : List Char} (h : test.Spelled text)
    (hpath : test.path.Valid) (hlink : test.link = ' ') : findCall? text = none := by
  obtain ⟨rest, rfl⟩ := h.eq_lead_append
  cases test with
  | call => simp [Test.link] at hlink
  | compare operand => exact findCall?_operand hpath rest
  | between operand => exact findCall?_operand hpath rest
  | oneOf operand => exact findCall?_operand hpath rest

/-- The characters of a placeholder. -/
theorem isPlaceholder_chars {text : List Char} (h : isPlaceholder text = true) :
    text ≠ [] ∧ ∀ c ∈ text, c = ':' ∨ isWordChar c = true := by
  unfold isPlaceholder at h
  split at h
  · rename_i rest
    simp only [Bool.and_eq_true, List.all_eq_true] at h
    refine ⟨by simp, fun c hc => ?_⟩
    rcases List.mem_cons.mp hc with rfl | hc
    · exact .inl rfl
    · exact .inr (h.2 c hc)
  · contradiction

theorem isPlaceholder_delimiter {text : List Char} (h : isPlaceholder text = true) :
    ∀ c ∈ text, isDelimiter c = false ∧ c ≠ '#' := by
  intro c hc
  rcases (isPlaceholder_chars h).2 c hc with rfl | hword
  · decide
  · refine ⟨isDelimiter_of_isWordChar hword, ?_⟩
    rintro rfl
    revert hword
    decide

theorem readCall_eq_ok_iff {function : BuiltIn} {inner : List Char} {raw : RawTest} :
    readCall function inner = .ok raw ↔ ∃ path value?,
      (split ',' inner).map trim = path :: Option.toList value? ∧
        (Option.toList value?).length + 1 = function.arity ∧ raw = .call function path value? := by
  rw [readCall]
  generalize (split ',' inner).map trim = arguments
  have harity : function.arity = 1 ∨ function.arity = 2 := by
    cases function <;> simp [BuiltIn.arity]
  constructor
  · intro h
    split_ifs at h with hcount
    obtain rfl := Except.ok.inj h
    rw [not_not] at hcount
    match arguments, hcount with
    | [], hcount => simp at hcount; omega
    | [path], hcount => exact ⟨path, none, rfl, hcount, rfl⟩
    | [path, value], hcount => exact ⟨path, some value, rfl, hcount, rfl⟩
    | _ :: _ :: _ :: _, hcount => simp at hcount; omega
  · rintro ⟨path, value?, rfl, hcount, rfl⟩
    rw [if_neg (by simpa using hcount)]
    cases value? <;> rfl

theorem Test.raw_eq_call_iff {test : Test} {function : BuiltIn} {path : List Char}
    {value? : Option (List Char)} : test.raw = .call function path value? ↔
      ∃ p v?, test = .call function p v? ∧ path = p.write String.toList ∧
        value? = v?.map String.toList := by
  constructor
  · intro h
    cases test with
    | call f p v? =>
      obtain ⟨rfl, rfl, rfl⟩ := RawTest.call.inj h
      exact ⟨p, v?, rfl, rfl, rfl⟩
    | _ => cases h
  · rintro ⟨p, v?, rfl, rfl, rfl⟩
    rfl

theorem readShape_eq_ok_cases {text : List Char} {raw : RawTest} :
    readShape text = .ok raw ↔
      (∃ function inner, findCall? text = some (function, inner) ∧
        readCall function inner = .ok raw) ∨
      findCall? text = none ∧ (readBetween? text = some raw ∨ readBetween? text = none ∧
        (readMembership? text = some raw ∨ readMembership? text = none ∧
          readComparison? text = some raw)) := by
  rw [readShape]
  cases hcall : findCall? text with
  | some call =>
    obtain ⟨function, inner⟩ := call
    simp
  | none =>
    rw [← Option.or_eq_some_iff, ← Option.or_eq_some_iff]
    simp only [Option.orElse_eq_orElse, Option.orElse_eq_or, reduceCtorEq, false_and,
      exists_false, false_or, true_and]
    cases (readBetween? text).or ((readMembership? text).or (readComparison? text)) <;> simp

theorem space_not_mem_placeholder {value : String} (h : isPlaceholder value.toList = true) :
    ' ' ∉ value.toList := by
  intro hmem
  have hdelimiter := (isPlaceholder_delimiter h ' ' hmem).1
  rw [isDelimiter_of_isBlank ' ' isBlank_space] at hdelimiter
  contradiction

theorem split_compare {operand : Operand} {comparator : Comparator} {value : String}
    (hpath : operand.path.Valid) (hvalue : isPlaceholder value.toList = true) :
    split ' ' ((Test.compare operand comparator value).write String.toList) =
      [operand.write String.toList, comparator.sign.toList, value.toList] := by
  have hjoin : (Test.compare operand comparator value).write String.toList =
      join [' '] [operand.write String.toList, comparator.sign.toList, value.toList] := by
    simp [Test.write, join]
  have hsign : ' ' ∉ comparator.sign.toList := by cases comparator <;> decide
  rw [hjoin]
  refine split_join (by simp) ?_
  simpa [hsign, space_not_mem_placeholder hvalue] using Operand.space_not_mem hpath

theorem split_between {operand : Operand} {low high : String} (hpath : operand.path.Valid)
    (hlow : isPlaceholder low.toList = true) (hhigh : isPlaceholder high.toList = true) :
    split ' ' ((Test.between operand low high).write String.toList) =
      [operand.write String.toList, "BETWEEN".toList, low.toList, "AND".toList, high.toList] := by
  have hjoin : (Test.between operand low high).write String.toList = join [' ']
      [operand.write String.toList, "BETWEEN".toList, low.toList, "AND".toList, high.toList] := by
    simp [Test.write, join]
  rw [hjoin]
  refine split_join (by simp) ?_
  simpa [space_not_mem_placeholder hlow, space_not_mem_placeholder hhigh] using
    Operand.space_not_mem hpath

theorem split_membership {operand : List Char} (hspace : ' ' ∉ operand) (inner : List Char) :
    split ' ' (operand ++ " IN (".toList ++ inner ++ [')']) =
      operand :: "IN".toList :: split ' ' ('(' :: (inner ++ [')'])) := by
  have htext : operand ++ " IN (".toList ++ inner ++ [')'] =
      operand ++ ' ' :: ("IN".toList ++ ' ' :: ('(' :: (inner ++ [')']))) := by
    simp
  rw [htext, split_append_cons, split_append_cons, split_of_not_mem hspace,
    split_of_not_mem (by decide)]
  rfl

theorem readBetween?_eq_none {text operand word : List Char} {rest : List (List Char)}
    (hsplit : split ' ' text = operand :: word :: rest) (hword : word ≠ "BETWEEN".toList) :
    readBetween? text = none := by
  refine Option.eq_none_iff_forall_ne_some.mpr fun raw hraw => ?_
  obtain ⟨_, _, _, hother, -⟩ := readBetween?_eq_some_iff.mp hraw
  rw [hsplit] at hother
  exact hword (List.cons.inj (List.cons.inj hother).2).1

theorem readMembership?_eq_none {text operand word : List Char} {rest : List (List Char)}
    (hsplit : split ' ' text = operand :: word :: rest) (hword : word ≠ "IN".toList) :
    readMembership? text = none := by
  refine Option.eq_none_iff_forall_ne_some.mpr fun raw hraw => ?_
  obtain ⟨other, inner, hspace, htext, -⟩ := readMembership?_eq_some_iff.mp hraw
  have hother := split_membership hspace inner
  rw [← htext, hsplit] at hother
  exact hword (List.cons.inj (List.cons.inj hother).2).1

section
variable {test : Test} {text : List Char}

/-- A text with the parts of a test is the test. -/
theorem spelled_of_readShape (h : readShape text = .ok test.raw) :
    test.Spelled text ∧ test.shape.Takes test.values.length := by
  rcases readShape_eq_ok_cases.mp h with
    ⟨function, inner, hcall, hread⟩ | ⟨-, hread | ⟨-, hread | ⟨-, hread⟩⟩⟩
  · obtain ⟨path, value?, hinner, hcount, hraw⟩ := readCall_eq_ok_iff.mp hread
    obtain ⟨p, v?, rfl, rfl, rfl⟩ := Test.raw_eq_call_iff.mp hraw
    rw [Option.toList_map] at hinner hcount
    rw [List.length_map] at hcount
    exact ⟨⟨inner, findCall?_eq_some_iff.mp hcall, hinner⟩, hcount⟩
  · obtain ⟨operand, low, high, hsplit, hraw⟩ := readBetween?_eq_some_iff.mp hread
    cases test <;> simp only [Test.raw, reduceCtorEq, RawTest.between.injEq] at hraw
    obtain ⟨rfl, rfl, rfl⟩ := hraw
    refine ⟨?_, rfl⟩
    show text = _
    rw [← join_split ' ' text, hsplit, Test.write]
    simp [join]
  · obtain ⟨operand, inner, -, htext, hraw⟩ := readMembership?_eq_some_iff.mp hread
    cases test <;> simp only [Test.raw, reduceCtorEq, RawTest.oneOf.injEq] at hraw
    rename_i operand values
    obtain ⟨rfl, hinner⟩ := hraw
    refine ⟨⟨inner, htext, hinner.symm⟩, List.length_pos_iff.mpr ?_⟩
    rintro rfl
    exact split_ne_nil ',' inner (List.map_eq_nil_iff.mp hinner.symm)
  · obtain ⟨operand, comparator, value, hsplit, hraw⟩ := readComparison?_eq_some_iff.mp hread
    cases test <;> simp only [Test.raw, reduceCtorEq, RawTest.compare.injEq] at hraw
    obtain ⟨rfl, rfl, rfl⟩ := hraw
    refine ⟨?_, rfl⟩
    show text = _
    rw [← join_split ' ' text, hsplit, Test.write]
    simp [join]

/-- The text of a test has the parts of the test. -/
theorem Test.Spelled.readShape_eq (h : test.Spelled text) (hvalid : test.Valid) :
    readShape text = .ok test.raw := by
  refine readShape_eq_ok_cases.mpr ?_
  cases test with
  | call function path value? =>
    obtain ⟨inner, htext, hinner⟩ := h
    have hcount : (value?.map String.toList).toList.length + 1 = function.arity := by
      rw [Option.toList_map, List.length_map]
      exact hvalid.count
    rw [← Option.toList_map] at hinner
    exact .inl ⟨function, inner, findCall?_eq_some_iff.mpr htext,
      readCall_eq_ok_iff.mpr ⟨_, _, hinner, hcount, rfl⟩⟩
  | between operand low high =>
    have hsplit := split_between hvalid.path (hvalid.values low (by simp [Test.values]))
      (hvalid.values high (by simp [Test.values]))
    rw [← show text = _ from h] at hsplit
    exact .inr ⟨h.findCall?_eq_none hvalid.path rfl,
      .inl (readBetween?_eq_some_iff.mpr ⟨_, _, _, hsplit, rfl⟩)⟩
  | oneOf operand values =>
    have hcall := h.findCall?_eq_none hvalid.path rfl
    obtain ⟨inner, htext, hinner⟩ := h
    have hspace := Operand.space_not_mem hvalid.path
    have hsplit := split_membership hspace inner
    rw [← htext] at hsplit
    refine .inr ⟨hcall, .inr ⟨readBetween?_eq_none hsplit (by decide),
      .inl (readMembership?_eq_some_iff.mpr ⟨_, inner, hspace, htext, ?_⟩)⟩⟩
    rw [hinner]
    rfl
  | compare operand comparator value =>
    have hsplit := @split_compare operand comparator value hvalid.path
      (hvalid.values value (List.mem_singleton_self value))
    rw [← show text = _ from h] at hsplit
    have hsign : comparator.sign.toList ≠ "BETWEEN".toList ∧
        comparator.sign.toList ≠ "IN".toList := by
      cases comparator <;> decide
    exact .inr ⟨h.findCall?_eq_none hvalid.path rfl, .inr ⟨readBetween?_eq_none hsplit hsign.1,
      .inr ⟨readMembership?_eq_none hsplit hsign.2,
        readComparison?_eq_some_iff.mpr ⟨_, _, _, hsplit, rfl⟩⟩⟩⟩

/-- A text has the parts of a test if it is the test, and the number of values fits. -/
theorem readShape_eq_ok_iff (hpath : test.path.Valid)
    (hvalues : ∀ value ∈ test.values, isPlaceholder value.toList = true) :
    readShape text = .ok test.raw ↔
      test.Spelled text ∧ test.shape.Takes test.values.length :=
  ⟨spelled_of_readShape, fun h => h.1.readShape_eq ⟨hpath, hvalues, h.2⟩⟩

end

/-! ## Lists of arguments -/

/-- The arguments of a list that is written with a comma and a space between two of them. -/
theorem arguments_join {texts : List (List Char)} (hne : texts ≠ [])
    (h : ∀ text ∈ texts, ∀ c ∈ text, isBlank c = false ∧ c ≠ ',') :
    (split ',' (join [',', ' '] texts)).map trim = texts := by
  -- behind the first comma the text starts with a blank
  have hfront : ∀ front : List Char, (∀ c ∈ front, isBlank c = true ∧ c ≠ ',') →
      (split ',' (front ++ join [',', ' '] texts)).map trim = texts := by
    induction texts with
    | nil => exact absurd rfl hne
    | cons text texts ih =>
      intro front hfront
      have htext := h text List.mem_cons_self
      have hcomma : ',' ∉ front ++ text := by
        intro hmem
        rcases List.mem_append.mp hmem with hmem | hmem
        · exact (hfront ',' hmem).2 rfl
        · exact (htext ',' hmem).2 rfl
      have htrim : trim (front ++ text) = text :=
        trim_append_of_not_blank (fun c hc => (hfront c hc).1) fun c hc => (htext c hc).1
      by_cases hnil : texts = []
      · subst hnil
        rw [join, split_of_not_mem hcomma, List.map_singleton, htrim]
      · have hrest := ih hnil (fun other hother => h other (List.mem_cons_of_mem text hother)) [' ']
          (by simp [isBlank_space])
        have hsplit : front ++ join [',', ' '] (text :: texts) =
            (front ++ text) ++ ',' :: ([' '] ++ join [',', ' '] texts) := by
          rw [join_cons hnil]
          simp
        rw [hsplit, split_append_cons, split_of_not_mem hcomma, List.map_append, hrest,
          List.map_singleton, htrim, List.singleton_append]
  simpa using hfront [] (by simp)

/-- The characters between parentheses are commas, blanks and those of the arguments. -/
theorem mem_arguments {inner : List Char} {c : Char} (h : c ∈ inner) :
    c = ',' ∨ isBlank c = true ∨ ∃ piece ∈ (split ',' inner).map trim, c ∈ piece := by
  rw [← join_split ',' inner] at h
  rcases mem_join h with h | ⟨piece, hpiece, h⟩
  · exact .inl (List.mem_singleton.mp h)
  · obtain ⟨before, after, htrim, hbefore, hafter⟩ := exists_trim piece
    rw [htrim] at h
    rcases List.mem_append.mp h with h | h
    · rcases List.mem_append.mp h with h | h
      · exact .inr (.inl (hbefore c h))
      · exact .inr (.inr ⟨trim piece, List.mem_map_of_mem hpiece, h⟩)
    · exact .inr (.inl (hafter c h))

/-- Lists with the same arguments differ in their blanks only. -/
theorem squeeze_arguments {inner : List Char} {texts : List (List Char)}
    (h : (split ',' inner).map trim = texts) : squeeze inner = squeeze (join [',', ' '] texts) := by
  have hlink : squeeze [',', ' '] = squeeze [','] := by
    rw [← List.singleton_append, squeeze_append, squeeze_space, List.append_nil]
  have hpieces : (split ',' inner).map squeeze = texts.map squeeze := by
    rw [← h, List.map_map]
    exact List.map_congr_left fun piece _ => (squeeze_trim piece).symm
  rw [squeeze_join, hlink, ← hpieces, ← squeeze_join, join_split]

/-! ## Texts of tests -/

section
variable {test : Test} {text : List Char}

theorem Test.Valid.value_chars (h : test.Valid) {value : List Char}
    (hvalue : value ∈ test.values.map String.toList) :
    value ≠ [] ∧ ∀ c ∈ value, isDelimiter c = false := by
  obtain ⟨placeholder, hmem, rfl⟩ := List.mem_map.mp hvalue
  have hplaceholder := h.values placeholder hmem
  exact ⟨(isPlaceholder_chars hplaceholder).1,
    fun c hc => (isPlaceholder_delimiter hplaceholder c hc).1⟩

/-- The arguments of a call or the values of a list hold no delimiter. -/
theorem Test.Valid.argument_chars (h : test.Valid) {argument : List Char}
    (hargument : argument ∈ test.path.write String.toList :: test.values.map String.toList) :
    argument ≠ [] ∧ ∀ c ∈ argument, isDelimiter c = false := by
  rcases List.mem_cons.mp hargument with rfl | hargument
  · exact ⟨h.path.write_ne_nil, fun c hc => (h.path.chars c hc).1⟩
  · exact h.value_chars hargument

/-- The text that a valid test is written as is the test. -/
theorem Test.Valid.spelled_write (h : test.Valid) : test.Spelled (test.write String.toList) := by
  have hchars : ∀ argument ∈ test.path.write String.toList :: test.values.map String.toList,
      ∀ c ∈ argument, isBlank c = false ∧ c ≠ ',' := by
    intro argument hargument c hc
    have hdelimiter := (h.argument_chars hargument).2 c hc
    rw [isDelimiter_eq_false_iff] at hdelimiter
    exact ⟨hdelimiter.1, hdelimiter.2.2.2⟩
  cases test with
  | compare => rfl
  | between => rfl
  | oneOf operand values =>
    have hne : values ≠ [] := List.length_pos_iff.mp h.count
    exact ⟨_, rfl, arguments_join (by simpa using hne) fun argument hargument =>
      hchars argument (List.mem_cons_of_mem _ hargument)⟩
  | call function path value? =>
    cases value? with
    | none =>
      exact ⟨path.write String.toList, by simp [Test.write],
        @arguments_join [path.write String.toList] (by simp) hchars⟩
    | some value =>
      exact ⟨join [',', ' '] [path.write String.toList, value.toList], by simp [Test.write, join],
        arguments_join (by simp) hchars⟩

/-- The text of a test and the one it is written as differ in their blanks only. -/
theorem Test.Spelled.squeeze_eq (h : test.Spelled text) :
    squeeze text = squeeze (test.write String.toList) := by
  cases test with
  | compare => rw [show text = _ from h]
  | between => rw [show text = _ from h]
  | oneOf operand values =>
    obtain ⟨inner, rfl, hinner⟩ := h
    simp only [Test.write, squeeze_append, squeeze_arguments hinner]
  | call function path value? =>
    obtain ⟨inner, rfl, hinner⟩ := h
    have hwrite : (Test.call function path value?).write String.toList = function.name.toList ++
        (['('] ++ (join [',', ' '] (path.write String.toList :: value?.toList.map String.toList) ++
          [')'])) := by
      cases value? <;> simp [Test.write, join]
    rw [hwrite, ← List.singleton_append (l := inner ++ [')'])]
    simp only [squeeze_append, squeeze_arguments hinner]

end

end TableClient.Condition
