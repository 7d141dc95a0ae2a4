import Mathlib
import TableClient.Condition.Reader
import TableClient.Proofs.Text.Pieces

/-!
# Reading paths and placeholders

A path, an operand or a list of value placeholders is read from a text exactly when it is well
formed and the text is the way it is written. So each of these readings has one equivalence, which
serves both directions: what was read can be written back, and what is written can be read.

Results:
* `areSubscripts_iff`: subscripts are any number of `[digits]` groups.
* `readPath_eq_ok_iff`, `readOperand_eq_ok_iff`: what is read as a path or an operand.
* `readPlaceholders_eq_ok_iff`: placeholders are read if each is new.
* `RawTest.read_eq_ok_iff`: what the parts of a test are read as.
-/

namespace TableClient.Condition

open Text

/-- The value of a step and of the one behind it. -/
theorem bind_eq_ok_iff {ε α β : Type} {x : Except ε α} {f : α → Except ε β} {b : β} :
    (x >>= f) = .ok b ↔ ∃ a, x = .ok a ∧ f a = .ok b := by
  cases x with
  | error e => simp [bind, Except.bind]
  | ok a => simp [bind, Except.bind]

/-! ## Subscripts -/

/-- Any number of `[digits]` groups. -/
inductive Subscripts : List Char → Prop
  | nil : Subscripts []
  | group {digits rest : List Char} (hne : digits ≠ [])
    (hdigits : ∀ c ∈ digits, c.isDigit = true) (h : Subscripts rest) :
    Subscripts ('[' :: (digits ++ ']' :: rest))

theorem areSubscripts_inside_iff {count : Nat} {text : List Char} :
    areSubscripts (some count) text = true ↔
      ∃ digits rest, text = digits ++ ']' :: rest ∧ (∀ c ∈ digits, c.isDigit = true) ∧
        0 < count + digits.length ∧ areSubscripts none rest = true := by
  induction text generalizing count with
  | nil => simp [areSubscripts]
  | cons c text ih =>
    rw [areSubscripts]
    have hdigit : (']' : Char).isDigit = false := by decide
    by_cases hc : c = ']'
    · subst hc
      simp only [↓reduceIte, Bool.and_eq_true, decide_eq_true_eq]
      constructor
      · rintro ⟨hcount, hrest⟩
        exact ⟨[], text, rfl, by simp, hcount, hrest⟩
      · rintro ⟨digits, rest, htext, hdigits, hcount, hrest⟩
        cases digits with
        | nil =>
          obtain ⟨-, rfl⟩ := List.cons.inj htext
          exact ⟨hcount, hrest⟩
        | cons d digits =>
          obtain ⟨rfl, -⟩ := List.cons.inj htext
          rw [hdigits _ List.mem_cons_self] at hdigit
          contradiction
    · simp only [hc, ↓reduceIte, Bool.and_eq_true, ih]
      constructor
      · rintro ⟨hd, digits, rest, rfl, hdigits, hcount, hrest⟩
        exact ⟨c :: digits, rest, rfl, by simpa [hd] using hdigits,
          by rw [List.length_cons]; omega, hrest⟩
      · rintro ⟨digits, rest, htext, hdigits, hcount, hrest⟩
        cases digits with
        | nil => exact absurd (List.cons.inj htext).1 hc
        | cons d digits =>
          obtain ⟨rfl, rfl⟩ := List.cons.inj htext
          exact ⟨hdigits c List.mem_cons_self, digits, rest, rfl,
            fun x hx => hdigits x (List.mem_cons_of_mem c hx),
            by rw [List.length_cons] at hcount; omega, hrest⟩

theorem areSubscripts_iff {text : List Char} :
    areSubscripts none text = true ↔ Subscripts text := by
  constructor
  · intro h
    induction hlen : text.length using Nat.strong_induction_on generalizing text with
    | _ n ih =>
      cases text with
      | nil => exact .nil
      | cons c text =>
        simp only [areSubscripts, Bool.and_eq_true, beq_iff_eq] at h
        obtain ⟨rfl, h⟩ := h
        obtain ⟨digits, rest, rfl, hdigits, hcount, hrest⟩ := areSubscripts_inside_iff.mp h
        rw [List.length_cons, List.length_append, List.length_cons] at hlen
        have hne : digits ≠ [] := by
          rintro rfl
          simp at hcount
        exact .group hne hdigits (ih rest.length (by omega) hrest rfl)
  · intro h
    induction h with
    | nil => rfl
    | @group digits rest hne hdigits _ ih =>
      have hcount := List.length_pos_iff.mpr hne
      rw [areSubscripts, beq_self_eq_true, Bool.true_and, areSubscripts_inside_iff]
      exact ⟨digits, rest, rfl, hdigits, by omega, ih⟩

instance (text : List Char) : Decidable (Subscripts text) :=
  decidable_of_iff (areSubscripts none text = true) areSubscripts_iff

/-- The characters of subscripts. -/
theorem Subscripts.chars {text : List Char} (h : Subscripts text) :
    ∀ c ∈ text, c = '[' ∨ c = ']' ∨ c.isDigit = true := by
  induction h with
  | nil => simp
  | group _ hdigits _ ih =>
    intro c hc
    rcases List.mem_cons.mp hc with rfl | hc
    · exact .inl rfl
    · rcases List.mem_append.mp hc with hc | hc
      · exact .inr (.inr (hdigits c hc))
      · rcases List.mem_cons.mp hc with rfl | hc
        · exact .inr (.inl rfl)
        · exact ih c hc

theorem Subscripts.eq_nil_or_eq_cons {text : List Char} (h : Subscripts text) :
    text = [] ∨ ∃ rest, text = '[' :: rest := by
  cases h with
  | nil => exact .inl rfl
  | group => exact .inr ⟨_, rfl⟩

theorem Subscripts.takeWhile_eq_nil {text : List Char} (h : Subscripts text) :
    text.takeWhile (· != '[') = [] := by
  rcases h.eq_nil_or_eq_cons with rfl | ⟨rest, rfl⟩ <;> rfl

/-! ## Paths -/

/-- A segment that can be written in a path. -/
structure Segment.Valid (segment : Segment) : Prop where
  isName : isName segment.name.toList = true
  noDot : '.' ∉ segment.name.toList
  subscripts : Subscripts segment.subscripts

/-- A path that can be written. -/
structure Path.Valid (path : Path) : Prop where
  ne_nil : path ≠ []
  segments : ∀ segment ∈ path, segment.Valid

instance (segment : Segment) : Decidable segment.Valid :=
  decidable_of_iff (isName segment.name.toList = true ∧ '.' ∉ segment.name.toList ∧
      Subscripts segment.subscripts)
    ⟨fun h => ⟨h.1, h.2.1, h.2.2⟩, fun h => ⟨h.isName, h.noDot, h.subscripts⟩⟩

instance (path : Path) : Decidable path.Valid :=
  decidable_of_iff (path ≠ [] ∧ ∀ segment ∈ path, segment.Valid)
    ⟨fun h => ⟨h.1, h.2⟩, fun h => ⟨h.ne_nil, h.segments⟩⟩

theorem not_mem_of_isName {text : List Char} (h : isName text = true) {c : Char} (hc : c ∈ text) :
    isBlank c = false ∧ c ∉ reserved := by
  simp only [isName, Bool.and_eq_true, List.all_eq_true] at h
  simpa using h.2 c hc

theorem readSegment?_eq_some_iff {text : List Char} {segment : Segment} :
    readSegment? text = some segment ↔ isName segment.name.toList = true ∧
      Subscripts segment.subscripts ∧ text = segment.write String.toList := by
  rw [readSegment?]
  constructor
  · intro h
    split_ifs at h with hvalid
    obtain ⟨hname, hsubscripts⟩ := Bool.and_eq_true_iff.mp hvalid
    obtain rfl := Option.some.inj h
    rw [Segment.write, String.toList_ofList, List.takeWhile_append_dropWhile]
    exact ⟨hname, areSubscripts_iff.mp hsubscripts, rfl⟩
  · rintro ⟨hname, hsubscripts, rfl⟩
    have hopen : ∀ c ∈ segment.name.toList, (c != '[') = true := by
      intro c hc
      have hreserved := (not_mem_of_isName hname hc).2
      simp only [reserved, List.mem_cons, not_or] at hreserved
      simpa using hreserved.2.2.1
    have htake : (segment.write String.toList).takeWhile (· != '[') = segment.name.toList := by
      rw [Segment.write, List.takeWhile_append_of_pos hopen, hsubscripts.takeWhile_eq_nil,
        List.append_nil]
    have hdrop : (segment.write String.toList).dropWhile (· != '[') = segment.subscripts := by
      have happend := List.takeWhile_append_dropWhile (p := (· != '['))
        (l := segment.write String.toList)
      rw [htake] at happend
      exact List.append_cancel_left happend
    rw [htake, hdrop, hname, areSubscripts_iff.mpr hsubscripts, Bool.and_self, if_pos rfl,
      String.ofList_toList]

theorem mapM_readSegment?_eq_some_iff {texts : List (List Char)} {path : Path} :
    texts.mapM readSegment? = some path ↔
      (∀ segment ∈ path, isName segment.name.toList = true ∧ Subscripts segment.subscripts) ∧
        texts = path.map (Segment.write String.toList) := by
  induction texts generalizing path with
  | nil => cases path <;> simp
  | cons text texts ih =>
    cases path with
    | nil => simp [List.mapM_cons, Option.bind_eq_some_iff]
    | cons segment path =>
      simp only [List.mapM_cons, Option.bind_eq_bind, Option.bind_eq_some_iff, ih,
        readSegment?_eq_some_iff, Option.pure_def, Option.some.injEq, List.cons.injEq,
        List.forall_mem_cons, List.map_cons]
      constructor
      · rintro ⟨a, ⟨hname, hsub, htext⟩, as, ⟨hrest, htexts⟩, rfl, rfl⟩
        exact ⟨⟨⟨hname, hsub⟩, hrest⟩, htext, htexts⟩
      · rintro ⟨⟨⟨hname, hsub⟩, hrest⟩, htext, htexts⟩
        exact ⟨segment, ⟨hname, hsub, htext⟩, path, ⟨hrest, htexts⟩, rfl, rfl⟩

/-- A dot in a segment is a dot in its name. -/
theorem Segment.dot_mem_write {segment : Segment} (h : Subscripts segment.subscripts) :
    '.' ∈ segment.write String.toList ↔ '.' ∈ segment.name.toList := by
  have hdot : '.' ∉ segment.subscripts := by
    intro hmem
    have := h.chars '.' hmem
    revert this
    decide
  simp [Segment.write, hdot]

/-- A text is read as a path if the path can be written and the text is the way it is. -/
theorem readPath_eq_ok_iff {text : List Char} {path : Path} :
    readPath text = .ok path ↔ path.Valid ∧ text = path.write String.toList := by
  have hread : readPath text = .ok path ↔ (split '.' text).mapM readSegment? = some path := by
    rw [readPath]
    split <;> simp_all
  rw [hread, mapM_readSegment?_eq_some_iff]
  constructor
  · rintro ⟨hsegments, hsplit⟩
    refine ⟨⟨?_, fun segment hsegment => ⟨(hsegments segment hsegment).1, ?_,
      (hsegments segment hsegment).2⟩⟩, ?_⟩
    · rintro rfl
      exact split_ne_nil '.' text hsplit
    · rw [← Segment.dot_mem_write (hsegments segment hsegment).2]
      refine @not_mem_of_mem_split '.' text _ ?_
      rw [hsplit]
      exact List.mem_map_of_mem hsegment
    · rw [Path.write, ← hsplit, join_split]
  · rintro ⟨hvalid, rfl⟩
    refine ⟨fun segment hsegment => ⟨(hvalid.segments segment hsegment).isName,
      (hvalid.segments segment hsegment).subscripts⟩, ?_⟩
    rw [Path.write]
    refine split_join (by simpa using hvalid.ne_nil) fun piece hpiece => ?_
    obtain ⟨segment, hsegment, rfl⟩ := List.mem_map.mp hpiece
    have hsegment := hvalid.segments segment hsegment
    rw [Segment.dot_mem_write hsegment.subscripts]
    exact hsegment.noDot

/-! ## Characters -/

/-- The characters that stand around the words of a test: blanks, parentheses and commas. -/
def isDelimiter (c : Char) : Bool := isBlank c || c == '(' || c == ')' || c == ','

theorem isDelimiter_eq_false_iff {c : Char} :
    isDelimiter c = false ↔ isBlank c = false ∧ c ≠ '(' ∧ c ≠ ')' ∧ c ≠ ',' := by
  simp [isDelimiter, and_assoc]

theorem isDelimiter_of_isBlank (c : Char) (h : isBlank c = true) : isDelimiter c = true := by
  simp [isDelimiter, h]

theorem isDelimiter_of_isWordChar {c : Char} (h : isWordChar c = true) : isDelimiter c = false := by
  simp only [isWordChar, Char.isAlphanum, Char.isAlpha, Char.isUpper, Char.isLower, Char.isDigit,
    Bool.or_eq_true, Bool.and_eq_true, decide_eq_true_eq, beq_iff_eq] at h
  have hnat : 48 ≤ c.toNat ∧ c.toNat ≤ 57 ∨ 65 ≤ c.toNat ∧ c.toNat ≤ 90 ∨
      95 ≤ c.toNat ∧ c.toNat ≤ 122 := by
    rcases h with ((h | h) | h) | rfl
    · exact .inr (.inl h)
    · have : 97 ≤ c.toNat ∧ c.toNat ≤ 122 := h
      omega
    · exact .inl h
    · decide
  rw [isDelimiter_eq_false_iff]
  refine ⟨?_, ?_, ?_, ?_⟩
  · simp [isBlank, blankRanges]
    omega
  all_goals
    rintro rfl
    revert hnat
    decide

theorem isBlank_of_isWordChar {c : Char} (h : isWordChar c = true) : isBlank c = false :=
  (isDelimiter_eq_false_iff.mp (isDelimiter_of_isWordChar h)).1

/-- The characters of a path that can be written. -/
theorem Path.Valid.chars {path : Path} (h : path.Valid) :
    ∀ c ∈ path.write String.toList, isDelimiter c = false ∧ c ≠ '#' := by
  intro c hc
  rcases mem_join hc with hc | ⟨piece, hpiece, hc⟩
  · obtain rfl := List.mem_singleton.mp hc
    decide
  · obtain ⟨segment, hsegment, rfl⟩ := List.mem_map.mp hpiece
    have hsegment := h.segments segment hsegment
    rcases List.mem_append.mp hc with hc | hc
    · obtain ⟨hblank, hreserved⟩ := not_mem_of_isName hsegment.isName hc
      simp only [reserved, List.mem_cons, not_or] at hreserved
      rw [isDelimiter_eq_false_iff]
      exact ⟨⟨hblank, hreserved.1, hreserved.2.1, hreserved.2.2.2.2.1⟩, hreserved.2.2.2.2.2.1⟩
    · rcases hsegment.subscripts.chars c hc with rfl | rfl | hdigit
      · decide
      · decide
      · have hword : isWordChar c = true := by simp [isWordChar, Char.isAlphanum, hdigit]
        refine ⟨isDelimiter_of_isWordChar hword, ?_⟩
        rintro rfl
        revert hdigit
        decide

theorem Path.Valid.write_ne_nil {path : Path} (h : path.Valid) :
    path.write String.toList ≠ [] := by
  obtain ⟨segment, rest, hpath⟩ := List.exists_cons_of_ne_nil h.ne_nil
  have hname : segment.name.toList ≠ [] := by
    have := (h.segments segment (by simp [hpath])).isName
    rintro hnil
    simp [isName, hnil] at this
  have hwrite : segment.write String.toList ≠ [] := by simp [Segment.write, hname]
  rw [hpath, Path.write, List.map_cons]
  cases rest with
  | nil => exact hwrite
  | cons next rest => simp [join, hwrite]

/-! ## Operands -/

/-- A text is read as an operand if its path can be written and the text is the way it is. -/
theorem readOperand_eq_ok_iff {text : List Char} {operand : Operand} :
    readOperand text = .ok operand ↔
      operand.path.Valid ∧ text = operand.write String.toList := by
  obtain ⟨path, sized⟩ := operand
  have hsized : ∀ {inner}, (dropLeading? "size(".toList text).bind (dropTrailing? [')']) =
      some inner ↔ text = "size(".toList ++ inner ++ [')'] := by
    intro inner
    simp only [Option.bind_eq_some_iff, dropLeading?_eq_some_iff, dropTrailing?_eq_some_iff]
    constructor
    · rintro ⟨rest, rfl, rfl⟩
      rw [List.append_assoc]
    · rintro rfl
      exact ⟨_, List.append_assoc _ _ _, rfl⟩
  rw [readOperand]
  cases hinner : (dropLeading? "size(".toList text).bind (dropTrailing? [')']) with
  | some inner =>
    obtain rfl := hsized.mp hinner
    simp only [bind_eq_ok_iff, readPath_eq_ok_iff, pure, Except.pure, Except.ok.injEq,
      Operand.mk.injEq]
    constructor
    · rintro ⟨_, ⟨hvalid, rfl⟩, rfl, rfl⟩
      exact ⟨hvalid, rfl⟩
    · rintro ⟨hvalid, htext⟩
      cases sized with
      | true =>
        refine ⟨path, ⟨hvalid, ?_⟩, rfl, rfl⟩
        simpa [Operand.write] using htext
      | false =>
        have htext : "size(".toList ++ inner ++ [')'] = path.write String.toList := htext
        have hparen := (hvalid.chars '(' (by rw [← htext]; simp)).1
        rw [isDelimiter_eq_false_iff] at hparen
        exact absurd rfl hparen.2.1
  | none =>
    simp only [bind_eq_ok_iff, readPath_eq_ok_iff, pure, Except.pure, Except.ok.injEq,
      Operand.mk.injEq]
    constructor
    · rintro ⟨_, ⟨hvalid, rfl⟩, rfl, rfl⟩
      exact ⟨hvalid, rfl⟩
    · rintro ⟨hvalid, htext⟩
      cases sized with
      | true =>
        rw [hsized.mpr htext] at hinner
        contradiction
      | false => exact ⟨path, ⟨hvalid, htext⟩, rfl, rfl⟩

/-! ## Placeholders -/

/-- Value placeholders that can be bound next to those in `bound`. -/
structure Fresh (bound values : List String) : Prop where
  valid : ∀ value ∈ values, isPlaceholder value.toList = true
  nodup : values.Nodup
  unused : ∀ value ∈ values, value ∉ bound

theorem fresh_nil (bound : List String) : Fresh bound [] :=
  ⟨by simp, List.nodup_nil, by simp⟩

theorem fresh_append_iff {bound values others : List String} :
    Fresh bound (values ++ others) ↔ Fresh bound values ∧ Fresh (bound ++ values) others := by
  constructor
  · rintro ⟨hvalid, hnodup, hunused⟩
    rw [List.nodup_append] at hnodup
    refine ⟨⟨fun v hv => hvalid v (List.mem_append_left _ hv), hnodup.1,
      fun v hv => hunused v (List.mem_append_left _ hv)⟩,
      ⟨fun v hv => hvalid v (List.mem_append_right _ hv), hnodup.2.1, fun v hv hmem => ?_⟩⟩
    rcases List.mem_append.mp hmem with hmem | hmem
    · exact hunused v (List.mem_append_right _ hv) hmem
    · exact hnodup.2.2 v hmem v hv rfl
  · rintro ⟨hv, ho⟩
    refine ⟨?_, List.nodup_append.mpr ⟨hv.nodup, ho.nodup, ?_⟩, ?_⟩
    · intro v hmem
      rcases List.mem_append.mp hmem with hmem | hmem
      · exact hv.valid v hmem
      · exact ho.valid v hmem
    · rintro v hmem w hother rfl
      exact ho.unused v hother (List.mem_append_right _ hmem)
    · intro v hmem hbound
      rcases List.mem_append.mp hmem with hmem | hmem
      · exact hv.unused v hmem hbound
      · exact ho.unused v hmem (List.mem_append_left _ hbound)

theorem fresh_singleton_iff {bound : List String} {value : String} :
    Fresh bound [value] ↔ isPlaceholder value.toList = true ∧ value ∉ bound := by
  constructor
  · intro h
    exact ⟨h.valid value (by simp), h.unused value (by simp)⟩
  · rintro ⟨hvalid, hunused⟩
    exact ⟨by simpa using hvalid, List.nodup_singleton value, by simpa using hunused⟩

theorem readPlaceholder_eq_ok_iff {bound : List String} {text : List Char} {value : String} :
    readPlaceholder bound text = .ok value ↔ Fresh bound [value] ∧ text = value.toList := by
  rw [readPlaceholder, fresh_singleton_iff]
  constructor
  · intro h
    split_ifs at h with hvalid hbound
    obtain rfl := Except.ok.inj h
    rw [String.toList_ofList]
    exact ⟨⟨by simpa using hvalid, by simpa using hbound⟩, rfl⟩
  · rintro ⟨⟨hvalid, hbound⟩, rfl⟩
    simp [hvalid, hbound]

/-- Texts are read as value placeholders if each is one that is new. -/
theorem readPlaceholders_eq_ok_iff {bound : List String} {texts : List (List Char)}
    {values : List String} :
    readPlaceholders bound texts = .ok values ↔
      Fresh bound values ∧ texts = values.map String.toList := by
  induction texts generalizing bound values with
  | nil =>
    cases values with
    | nil => simp [readPlaceholders, fresh_nil]
    | cons value values => simp [readPlaceholders]
  | cons text texts ih =>
    simp only [readPlaceholders, bind_eq_ok_iff, readPlaceholder_eq_ok_iff, ih, pure, Except.pure,
      Except.ok.injEq]
    constructor
    · rintro ⟨value, ⟨hvalue, rfl⟩, rest, ⟨hrest, rfl⟩, rfl⟩
      exact ⟨(@fresh_append_iff bound [value] rest).mpr ⟨hvalue, hrest⟩, rfl⟩
    · rintro ⟨hfresh, htexts⟩
      cases values with
      | nil => contradiction
      | cons value values =>
        obtain ⟨rfl, rfl⟩ := List.cons.inj htexts
        obtain ⟨hvalue, hrest⟩ := (@fresh_append_iff bound [value] values).mp hfresh
        exact ⟨value, ⟨hvalue, rfl⟩, values, ⟨hrest, rfl⟩, rfl⟩

/-! ## Tests -/

/-- The parts of a test, as texts. -/
def Test.raw : Test → RawTest
  | .compare operand comparator value =>
    .compare (operand.write String.toList) comparator value.toList
  | .between operand low high =>
    .between (operand.write String.toList) low.toList high.toList
  | .oneOf operand values => .oneOf (operand.write String.toList) (values.map String.toList)
  | .call function path value? =>
    .call function (path.write String.toList) (value?.map String.toList)

/-- The parts of a test are read if its path can be written, its value placeholders are new and
    the parts are the way they are written. -/
theorem RawTest.read_eq_ok_iff {bound : List String} {raw : RawTest} {test : Test} :
    raw.read bound = .ok test ↔
      test.path.Valid ∧ Fresh bound test.values ∧ raw = test.raw := by
  have happend : ∀ {low high : String}, Fresh bound [low, high] ↔
      Fresh bound [low] ∧ Fresh (bound ++ [low]) [high] :=
    fun {low high} => @fresh_append_iff bound [low] [high]
  cases raw with
  | compare operand comparator value =>
    simp only [RawTest.read, bind_eq_ok_iff, readOperand_eq_ok_iff, readPlaceholder_eq_ok_iff, pure,
      Except.pure, Except.ok.injEq]
    constructor
    · rintro ⟨operand, ⟨hpath, rfl⟩, value, ⟨hfresh, rfl⟩, rfl⟩
      exact ⟨hpath, hfresh, rfl⟩
    · rintro ⟨hpath, hfresh, hraw⟩
      cases test <;> simp_all [Test.raw, Test.path, Test.values]
  | between operand low high =>
    simp only [RawTest.read, bind_eq_ok_iff, readOperand_eq_ok_iff, readPlaceholder_eq_ok_iff, pure,
      Except.pure, Except.ok.injEq]
    constructor
    · rintro ⟨operand, ⟨hpath, rfl⟩, low, ⟨hlow, rfl⟩, high, ⟨hhigh, rfl⟩, rfl⟩
      exact ⟨hpath, happend.mpr ⟨hlow, hhigh⟩, rfl⟩
    · rintro ⟨hpath, hfresh, hraw⟩
      cases test <;> simp_all [Test.raw, Test.path, Test.values]
  | oneOf operand values =>
    simp only [RawTest.read, bind_eq_ok_iff, readOperand_eq_ok_iff, readPlaceholders_eq_ok_iff,
      pure, Except.pure, Except.ok.injEq]
    constructor
    · rintro ⟨operand, ⟨hpath, rfl⟩, values, ⟨hfresh, rfl⟩, rfl⟩
      exact ⟨hpath, hfresh, rfl⟩
    · rintro ⟨hpath, hfresh, hraw⟩
      cases test <;> simp_all [Test.raw, Test.path, Test.values]
  | call function path value? =>
    cases value? with
    | none =>
      simp only [RawTest.read, bind_eq_ok_iff, readPath_eq_ok_iff, pure, Except.pure,
        Except.ok.injEq]
      constructor
      · rintro ⟨path, ⟨hpath, rfl⟩, rfl⟩
        exact ⟨hpath, fresh_nil bound, rfl⟩
      · rintro ⟨hpath, hfresh, hraw⟩
        cases test <;> simp_all [Test.raw, Test.path, Test.values]
    | some value =>
      simp only [RawTest.read, bind_eq_ok_iff, readPath_eq_ok_iff, readPlaceholder_eq_ok_iff, pure,
        Except.pure, Except.ok.injEq]
      constructor
      · rintro ⟨path, ⟨hpath, rfl⟩, value, ⟨hfresh, rfl⟩, rfl⟩
        exact ⟨hpath, hfresh, rfl⟩
      · rintro ⟨hpath, hfresh, hraw⟩
        cases test with
        | call _ path value? => cases value? <;> simp_all [Test.raw, Test.path, Test.values]
        | _ => simp [Test.raw] at hraw

end TableClient.Condition
