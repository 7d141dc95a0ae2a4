import Mathlib
import TableClient.Proofs.Condition.Compile

/-!
# The placeholders of a condition

A placeholder in a text is a sign, `#` for names and `:` for values, with the word characters behind
it. The store refuses a request that uses a placeholder without binding it and one that binds a
placeholder without using it. In a written condition the signs stand at the start of the names and
values and nowhere else, and no word character follows a name or a value.

Results:
* `placeholdersIn_append`: a text is searched part by part where no word character follows.
* `placeholdersIn_writeGroups`: the placeholders of a written condition are those of its names and
  values.
* `closed_of_compile`, `Compiled.Closed.join`: a compiled condition binds exactly the placeholders
  of its text, and so does a joined one.
-/

namespace TableClient.Condition

open Text

/-- The placeholders of a text that start with a sign, in order: each occurrence of the sign with
    the word characters behind it. -/
def placeholdersIn (sign : Char) : List Char → List String
  | [] => []
  | c :: rest =>
    if c = sign then String.ofList (c :: rest.takeWhile isWordChar) :: placeholdersIn sign rest
    else placeholdersIn sign rest

/-- Whether a character starts placeholders. -/
def isSign (c : Char) : Bool := c == '#' || c == ':'

/-- Whether a text holds no sign. -/
def isUnsigned (text : List Char) : Bool := text.all fun c => !isSign c

theorem isUnsigned_iff {text : List Char} :
    isUnsigned text = true ↔ ∀ c ∈ text, isSign c = false := by
  simp [isUnsigned]

/-- Whether a text ends the word before it and holds no sign. -/
def separates (text : List Char) : Bool :=
  isUnsigned text && text.head?.any fun c => !isWordChar c

theorem separates_iff {text : List Char} : separates text = true ↔
    isUnsigned text = true ∧ ∃ c rest, text = c :: rest ∧ isWordChar c = false := by
  cases text <;> simp [separates]

theorem isSign_of_isWordChar {c : Char} (h : isWordChar c = true) : isSign c = false := by
  rw [isSign, Bool.or_eq_false_iff, beq_eq_false_iff_ne, beq_eq_false_iff_ne]
  constructor
  all_goals
    rintro rfl
    revert h
    decide

theorem isUnsigned_of_isWordChar {word : List Char} (h : ∀ c ∈ word, isWordChar c = true) :
    isUnsigned word = true :=
  isUnsigned_iff.mpr fun c hc => isSign_of_isWordChar (h c hc)

/-! ## Searching a text -/

section
variable {sign : Char}

/-- A text is searched part by part where no word character follows. -/
theorem placeholdersIn_append (text : List Char) {rest : List Char}
    (h : ∀ c ∈ rest.head?, isWordChar c = false) :
    placeholdersIn sign (text ++ rest) = placeholdersIn sign text ++ placeholdersIn sign rest := by
  have hstop : rest.takeWhile isWordChar = [] := by
    cases rest with
    | nil => rfl
    | cons c rest => exact List.takeWhile_cons_of_neg (by simp [h c rfl])
  induction text with
  | nil => rfl
  | cons c text ih =>
    rw [List.cons_append, placeholdersIn, placeholdersIn, List.takeWhile_append, hstop,
      List.append_nil, ih]
    by_cases hc : c = sign
    · simp only [hc, ↓reduceIte, List.cons_append]
      split_ifs with hlength
      · rw [(List.takeWhile_prefix isWordChar).eq_of_length hlength]
      · rfl
    · simp only [hc, ↓reduceIte]

variable (hsign : isSign sign = true)
include hsign

theorem placeholdersIn_unsigned {text : List Char} (h : isUnsigned text = true) (rest : List Char) :
    placeholdersIn sign (text ++ rest) = placeholdersIn sign rest := by
  induction text with
  | nil => rfl
  | cons c text ih =>
    obtain ⟨hfirst, htext⟩ := List.forall_mem_cons.mp (isUnsigned_iff.mp h)
    have hc : c ≠ sign := by
      rintro rfl
      rw [hfirst] at hsign
      contradiction
    rw [List.cons_append, placeholdersIn, if_neg hc]
    exact ih (isUnsigned_iff.mpr htext)

theorem placeholdersIn_eq_nil {text : List Char} (h : isUnsigned text = true) :
    placeholdersIn sign text = [] := by
  rw [← text.append_nil, placeholdersIn_unsigned hsign h, placeholdersIn]

/-- What separates two texts hides no placeholder and adds none. -/
theorem placeholdersIn_separated (text : List Char) {gap : List Char} (h : separates gap = true)
    (rest : List Char) : placeholdersIn sign (text ++ (gap ++ rest)) =
      placeholdersIn sign text ++ placeholdersIn sign rest := by
  obtain ⟨hunsigned, c, more, rfl, hword⟩ := separates_iff.mp h
  rw [placeholdersIn_append, placeholdersIn_unsigned hsign hunsigned]
  intro d hd
  obtain rfl : c = d := by simpa using hd
  exact hword

theorem placeholdersIn_closed (text : List Char) {gap : List Char} (h : separates gap = true) :
    placeholdersIn sign (text ++ gap) = placeholdersIn sign text := by
  have hgap := placeholdersIn_separated hsign text h []
  rwa [List.append_nil, placeholdersIn, List.append_nil] at hgap

/-- Texts that are joined keep their placeholders. -/
theorem placeholdersIn_join {link : List Char} (h : separates link = true)
    (texts : List (List Char)) :
    placeholdersIn sign (join link texts) = texts.flatMap (placeholdersIn sign) := by
  induction texts with
  | nil => rfl
  | cons text texts ih =>
    by_cases hnil : texts = []
    · subst hnil
      simp [join]
    · rw [join_cons hnil, List.append_assoc, placeholdersIn_separated hsign text h, ih,
        List.flatMap_cons]

/-- A sign and word characters are one placeholder. -/
theorem placeholdersIn_mark {mark : String} {word : List Char} (hmark : mark.toList = sign :: word)
    (h : ∀ c ∈ word, isWordChar c = true) : placeholdersIn sign mark.toList = [mark] := by
  have hself : String.ofList (sign :: word) = mark := by rw [← hmark, String.ofList_toList]
  rw [hmark, placeholdersIn, if_pos rfl, List.takeWhile_eq_self_iff.mpr h,
    placeholdersIn_eq_nil hsign (isUnsigned_of_isWordChar h), hself]

/-- A placeholder of the other kind is none of this one. -/
theorem placeholdersIn_other {other : Char} (hother : other ≠ sign) {mark : String}
    {word : List Char} (hmark : mark.toList = other :: word)
    (h : ∀ c ∈ word, isWordChar c = true) : placeholdersIn sign mark.toList = [] := by
  rw [hmark, placeholdersIn, if_neg hother,
    placeholdersIn_eq_nil hsign (isUnsigned_of_isWordChar h)]

end

/-! ## Written conditions -/

section
variable {sign : Char} {spell : String → List Char}

theorem Subscripts.separates {text : List Char} (h : Subscripts text) :
    text = [] ∨ separates text = true := by
  have hunsigned : isUnsigned text = true := by
    refine isUnsigned_iff.mpr fun c hc => ?_
    rw [isSign, Bool.or_eq_false_iff, beq_eq_false_iff_ne, beq_eq_false_iff_ne]
    constructor
    all_goals
      rintro rfl
      have := h.chars _ hc
      revert this
      decide
  rcases h.eq_nil_or_eq_cons with hnil | ⟨more, rfl⟩
  · exact .inl hnil
  · exact .inr (separates_iff.mpr ⟨hunsigned, '[', more, rfl, by decide⟩)

theorem Opening.unsigned {negated : Bool} {opening : List Char} (h : Opening negated opening) :
    isUnsigned opening = true := by
  induction h with
  | nil => rfl
  | paren _ ih => simpa [isUnsigned, isSign] using ih
  | space _ ih => simpa [isUnsigned, isSign] using ih
  | not _ ih => simpa [isUnsigned, isSign] using ih

theorem Closing.separates {closing : List Char} (h : Closing closing) :
    closing = [] ∨ separates closing = true := by
  have hchars : ∀ c ∈ closing, isSign c = false ∧ isWordChar c = false := by
    intro c hc
    rcases h.chars c hc with rfl | rfl <;> decide
  cases closing with
  | nil => exact .inl rfl
  | cons c closing =>
    have hunsigned := isUnsigned_iff.mpr fun d hd => (hchars d hd).1
    exact .inr (separates_iff.mpr ⟨hunsigned, c, closing, rfl, (hchars c List.mem_cons_self).2⟩)

variable (hsign : isSign sign = true)
include hsign

/-- The placeholders of a written path are those of its names. -/
theorem placeholdersIn_path {path : Path} (h : path.Valid) :
    placeholdersIn sign (path.write spell) =
      path.flatMap fun segment => placeholdersIn sign (spell segment.name) := by
  rw [Path.write, placeholdersIn_join hsign rfl,
    List.flatMap_map]
  refine List.flatMap_congr fun segment hsegment => ?_
  rw [Segment.write]
  rcases (h.segments segment hsegment).subscripts.separates with hnil | hseparates
  · rw [hnil, List.append_nil]
  · rw [placeholdersIn_closed hsign _ hseparates]

theorem placeholdersIn_operand {operand : Operand} (h : operand.path.Valid) :
    placeholdersIn sign (operand.write spell) =
      operand.path.flatMap fun segment => placeholdersIn sign (spell segment.name) := by
  rw [Operand.write]
  split_ifs
  · rw [List.append_assoc, placeholdersIn_unsigned hsign rfl,
      placeholdersIn_closed hsign _ rfl,
      placeholdersIn_path hsign h]
  · exact placeholdersIn_path hsign h

/-- The placeholders of a written test are those of its names and values. -/
theorem Test.Valid.placeholdersIn_write {test : Test} (h : test.Valid) :
    placeholdersIn sign (test.write spell) =
      (test.path.flatMap fun segment => placeholdersIn sign (spell segment.name)) ++
        test.values.flatMap fun value => placeholdersIn sign value.toList := by
  -- between the names and the values stand fixed texts, which end the word before them
  cases test with
  | compare operand comparator value =>
    have hgap : separates (' ' :: comparator.sign.toList ++ [' ']) = true := by
      cases comparator <;> rfl
    have hwrite : (Test.compare operand comparator value).write spell =
        operand.write spell ++ ((' ' :: comparator.sign.toList ++ [' ']) ++ value.toList) := by
      simp [Test.write]
    rw [hwrite, placeholdersIn_separated hsign _ hgap, placeholdersIn_operand hsign h.path]
    simp [Test.path, Test.values]
  | between operand low high =>
    have hwrite : (Test.between operand low high).write spell =
        operand.write spell ++ (" BETWEEN ".toList ++
          (low.toList ++ (" AND ".toList ++ high.toList))) := by
      simp [Test.write]
    rw [hwrite, placeholdersIn_separated hsign _ rfl, placeholdersIn_separated hsign _ rfl,
      placeholdersIn_operand hsign h.path]
    simp [Test.path, Test.values]
  | oneOf operand values =>
    have hwrite : (Test.oneOf operand values).write spell = operand.write spell ++
        (" IN (".toList ++ (join [',', ' '] (values.map String.toList) ++ [')'])) := by
      simp [Test.write]
    rw [hwrite, placeholdersIn_separated hsign _ rfl, placeholdersIn_closed hsign _ rfl,
      placeholdersIn_join hsign rfl, List.flatMap_map, placeholdersIn_operand hsign h.path]
    rfl
  | call function path value? =>
    have hpath : path.Valid := h.path
    have hname : isUnsigned (function.name.toList ++ ['(']) = true := by cases function <;> rfl
    cases value? with
    | none =>
      have hwrite : (Test.call function path none).write spell =
          function.name.toList ++ ['('] ++ (path.write spell ++ [')']) := by
        simp [Test.write]
      rw [hwrite, placeholdersIn_unsigned hsign hname, placeholdersIn_closed hsign _ rfl,
        placeholdersIn_path hsign hpath]
      simp [Test.path, Test.values]
    | some value =>
      have hwrite : (Test.call function path (some value)).write spell =
          function.name.toList ++ ['('] ++
            (path.write spell ++ ([',', ' '] ++ (value.toList ++ [')']))) := by
        simp [Test.write]
      rw [hwrite, placeholdersIn_unsigned hsign hname, placeholdersIn_separated hsign _ rfl,
        placeholdersIn_closed hsign _ rfl, placeholdersIn_path hsign hpath]
      simp [Test.path, Test.values]

theorem Term.Valid.placeholdersIn_write {term : Term} (h : term.Valid) :
    placeholdersIn sign (term.write spell) =
      (term.names.flatMap fun name => placeholdersIn sign (spell name)) ++
        term.values.flatMap fun value => placeholdersIn sign value.toList := by
  have htest : placeholdersIn sign (term.opening ++ term.test.write spell ++ term.closing) =
      placeholdersIn sign (term.test.write spell) := by
    rcases h.closing.separates with hnil | hseparates
    · rw [hnil, List.append_nil, placeholdersIn_unsigned hsign h.opening.unsigned]
    · rw [placeholdersIn_closed hsign _ hseparates,
        placeholdersIn_unsigned hsign h.opening.unsigned]
  rw [Term.write, htest, h.test.placeholdersIn_write hsign, Term.names, List.flatMap_map]
  rfl

/-- The placeholders of a written condition are those of its names and values. -/
theorem placeholdersIn_writeGroups {groups : List (List Term)}
    (h : ∀ group ∈ groups, ∀ term ∈ group, term.Valid) :
    placeholdersIn sign (writeGroups spell groups) = groups.flatten.flatMap fun term =>
      (term.names.flatMap fun name => placeholdersIn sign (spell name)) ++
        term.values.flatMap fun value => placeholdersIn sign value.toList := by
  rw [writeGroups, placeholdersIn_join hsign rfl, List.flatMap_map, List.flatten_eq_flatMap,
    List.flatMap_assoc]
  refine List.flatMap_congr fun group hgroup => ?_
  rw [placeholdersIn_join hsign rfl, List.flatMap_map]
  exact List.flatMap_congr fun term hterm => (h group hgroup term hterm).placeholdersIn_write hsign

end

/-! ## Compiled conditions -/

/-- A condition that binds exactly the placeholders of its text. -/
structure Compiled.Closed (c : Compiled) : Prop where
  names : ∀ mark, mark ∈ placeholdersIn '#' c.text.toList ↔ mark ∈ Dict.keys c.names
  values : ∀ mark, mark ∈ placeholdersIn ':' c.text.toList ↔ mark ∈ Dict.keys c.values

theorem placeholdersIn_placeholderOf (names : List String) (name : String) :
    placeholdersIn '#' (placeholderOf names name).toList = [placeholderOf names name] ∧
      placeholdersIn ':' (placeholderOf names name).toList = [] := by
  obtain ⟨word, hmark, hword⟩ := exists_toList_placeholder (names.idxOf name)
  exact ⟨placeholdersIn_mark rfl hmark hword, placeholdersIn_other rfl (by decide) hmark hword⟩

theorem placeholdersIn_of_isPlaceholder {value : String} (h : isPlaceholder value.toList = true) :
    placeholdersIn ':' value.toList = [value] ∧ placeholdersIn '#' value.toList = [] := by
  obtain ⟨word, hmark, hword⟩ : ∃ word, value.toList = ':' :: word ∧
      ∀ c ∈ word, isWordChar c = true := by
    unfold isPlaceholder at h
    split at h
    · rename_i word hmark
      exact ⟨word, hmark, List.all_eq_true.mp (Bool.and_eq_true_iff.mp h).2⟩
    · contradiction
  exact ⟨placeholdersIn_mark rfl hmark hword, placeholdersIn_other rfl (by decide) hmark hword⟩

/-- The placeholders of the text that is sent are those of its names, in order, and its value
    placeholders. -/
theorem placeholdersIn_compiled {all : List String} {groups : List (List Term)}
    (values : List Json) (hvalid : ∀ group ∈ groups, ∀ term ∈ group, term.Valid) :
    placeholdersIn '#' (compiled all groups values).text.toList =
        (allNames groups).map (placeholderOf all) ∧
      placeholdersIn ':' (compiled all groups values).text.toList = allValues groups := by
  let spell : String → List Char := fun name => (placeholderOf all name).toList
  have hnames := @placeholdersIn_writeGroups '#' spell rfl groups hvalid
  have hvalues := @placeholdersIn_writeGroups ':' spell rfl groups hvalid
  have htext : (compiled all groups values).text.toList = writeGroups spell groups :=
    String.toList_ofList
  have hmarks : ∀ term ∈ groups.flatten, ∀ value ∈ term.values,
      isPlaceholder value.toList = true := by
    intro term hterm value hvalue
    obtain ⟨group, hgroup, hterm⟩ := List.mem_flatten.mp hterm
    exact (hvalid group hgroup term hterm).test.values value hvalue
  rw [htext, hnames, hvalues, allNames, allValues, List.map_flatMap]
  constructor
  · refine List.flatMap_congr fun term hterm => ?_
    rw [List.flatMap_eq_nil_iff.mpr fun value hvalue =>
      (placeholdersIn_of_isPlaceholder (hmarks term hterm value hvalue)).2, List.append_nil,
      List.map_eq_flatMap]
    exact List.flatMap_congr fun name _ => (placeholdersIn_placeholderOf all name).1
  · refine List.flatMap_congr fun term hterm => ?_
    rw [List.flatMap_eq_nil_iff.mpr fun name _ => (placeholdersIn_placeholderOf all name).2,
      List.nil_append, List.flatMap_congr fun value hvalue =>
        (placeholdersIn_of_isPlaceholder (hmarks term hterm value hvalue)).1]
    exact List.flatMap_singleton' _

theorem mem_keys_compiled {all : List String} {groups : List (List Term)} {values : List Json}
    (h : (allValues groups).length = values.length) {mark : String} :
    mark ∈ Dict.keys (compiled all groups values).values ↔ mark ∈ allValues groups := by
  have hlength : (allValues groups).length ≤ (values.map Attribute.ofDocument).length := by
    rw [List.length_map, h]
  rw [compiled, Dict.mem_keys_ofList, ← allValues, List.map_fst_zip hlength]

/-- A compiled condition binds exactly the placeholders of its text. -/
theorem closed_of_compile {names after : Namespace} {text : String} {values : List Json}
    {c : Compiled} (h : compile names text values = .ok (c, after)) : c.Closed := by
  obtain ⟨groups, hvalid, -, hcount, rfl, -⟩ := exists_terms_of_compile h
  obtain ⟨hnames, hvalues⟩ :=
    @placeholdersIn_compiled (addNames names.names (allNames groups)) groups values hvalid
  constructor
  · intro mark
    rw [hnames, compiled, Dict.mem_keys_ofList, List.map_map]
    rfl
  · intro mark
    rw [hvalues, mem_keys_compiled hcount]

namespace Compiled

theorem placeholdersIn_grouped {sign : Char} (hsign : isSign sign = true) (c : Compiled) :
    placeholdersIn sign c.grouped.toList = placeholdersIn sign c.text.toList := by
  rw [grouped]
  split_ifs
  · rw [String.toList_append, String.toList_append, List.append_assoc,
      placeholdersIn_unsigned hsign rfl, placeholdersIn_closed hsign _ rfl]
  · rfl

/-- A joined condition binds exactly the placeholders of its text. -/
theorem Closed.join {connective : Connective} {left right c : Compiled} (hleft : left.Closed)
    (hright : right.Closed) (h : Compiled.join connective left right = .ok c) : c.Closed := by
  have hword : separates (' ' :: connective.word.toList ++ [' ']) = true := by
    cases connective <;> rfl
  have hmarks : ∀ {sign : Char}, isSign sign = true →
      placeholdersIn sign (left.grouped ++ " " ++ connective.word ++ " " ++ right.grouped).toList =
        placeholdersIn sign left.text.toList ++ placeholdersIn sign right.text.toList := by
    intro sign hsign
    have htext : (left.grouped ++ " " ++ connective.word ++ " " ++ right.grouped).toList =
        left.grouped.toList ++ ((' ' :: connective.word.toList ++ [' ']) ++
          right.grouped.toList) := by
      simp
    rw [htext, placeholdersIn_separated hsign _ hword, placeholdersIn_grouped hsign,
      placeholdersIn_grouped hsign]
  rw [Compiled.join] at h
  split at h
  · contradiction
  · obtain rfl := Except.ok.inj h
    constructor
    · intro mark
      rw [hmarks rfl, List.mem_append, hleft.names, hright.names, Dict.mem_keys_insertAll]
      rfl
    · intro mark
      rw [hmarks rfl, List.mem_append, hleft.values, hright.values, Dict.mem_keys_insertAll]
      rfl

end Compiled

end TableClient.Condition
