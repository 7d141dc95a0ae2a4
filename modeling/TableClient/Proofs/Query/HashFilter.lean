import Mathlib
import TableClient.Proofs.Query.Building
import TableClient.Proofs.Condition.Recompile

/-!
# Selecting a hash attribute

A hash attribute is selected by a condition that is written from its name and then read like any
other. So the name is not taken as it is: it may read as a path, as an operand with `size`, as
parentheses or `NOT`s around a name, or as several terms. A name is selected by itself exactly if it
is read back as the one segment of a path.

Results:
* `termTexts_selection`: a word that a value is selected for is the only term of its condition.
* `compile_selection`: what the condition on a plain name is compiled to.
* `isPlain_of_compile`: only a plain name is bound by itself.
* `hashFilter_selects_iff`: which names a hash filter selects by themselves.
-/

namespace TableClient

namespace Condition

open Text

/-! ## Names that stand for themselves -/

/-- A name that a condition can mention as it is: it reads as one segment of a path, it is not taken
    for the word `NOT`, and no part of it is taken for a masked `AND`. -/
structure IsPlain (name : String) : Prop where
  isName : isName name.toList = true
  noDot : '.' ∉ name.toList
  notKeyword : name ≠ "NOT"
  unmasked : unmask name.toList = name.toList

instance (name : String) : Decidable (IsPlain name) :=
  decidable_of_iff (isName name.toList = true ∧ '.' ∉ name.toList ∧ name ≠ "NOT" ∧
      unmask name.toList = name.toList)
    ⟨fun h => ⟨h.1, h.2.1, h.2.2.1, h.2.2.2⟩,
      fun h => ⟨h.isName, h.noDot, h.notKeyword, h.unmasked⟩⟩

example : IsPlain "album" ∧ ¬ IsPlain "album.no" ∧ ¬ IsPlain "album no" := by decide

theorem not_blank_of_isName {text : List Char} (h : isName text = true) :
    text ≠ [] ∧ ∀ c ∈ text, isBlank c = false := by
  refine ⟨?_, fun c hc => (not_mem_of_isName h hc).1⟩
  rintro rfl
  exact absurd h (by decide)

/-! ## Reading a selection -/

/-- The term that selects a value of an attribute. -/
def selection (name : String) : Term :=
  ⟨[], false, .compare ⟨[⟨name, []⟩], false⟩ .equal ":hv", []⟩

theorem write_selection (spell : String → List Char) (name : String) :
    (selection name).write spell = spell name ++ " = :hv".toList := by
  simp [selection, Term.write, Test.write, Operand.write, Path.write, Segment.write, join,
    Comparator.sign]

theorem IsPlain.valid_selection {name : String} (h : IsPlain name) : (selection name).Valid := by
  have hsegment : Segment.Valid ⟨name, []⟩ := ⟨h.isName, h.noDot, .nil⟩
  have hpath : Path.Valid [⟨name, []⟩] := ⟨List.cons_ne_nil _ _, by simpa using hsegment⟩
  have hvalue : ∀ value ∈ [":hv"], isPlaceholder value.toList = true := by decide
  refine ⟨.nil, ⟨hpath, hvalue, ?_⟩, fun hlead => h.notKeyword (String.toList_inj.mp ?_), .nil⟩
  · simp [selection, Test.shape, Test.values, Shape.Takes]
  · simpa [selection, Test.lead, Operand.write, Path.write, Segment.write, join] using hlead

/-- The words of a selection, if the name is a word. -/
theorem words_selection {name : String} (h : isName name.toList = true) :
    words (name ++ " = :hv").toList = [name.toList, "=".toList, ":hv".toList] := by
  have hjoin : (name ++ " = :hv").toList = join [' '] [name.toList, "=".toList, ":hv".toList] := by
    simp [join]
  rw [hjoin]
  have hwords : ∀ word ∈ ["=".toList, ":hv".toList], word ≠ [] ∧ ∀ c ∈ word, isBlank c = false := by
    simp [isBlank, blankRanges]
  exact words_join (List.forall_mem_cons.mpr ⟨not_blank_of_isName h, hwords⟩)

/-- A word that a value is selected for is the only term of its condition, whatever the word is. -/
theorem termTexts_selection (word : List Char) :
    termTexts [word, "=".toList, ":hv".toList] = [[unmask word ++ " = :hv".toList]] := by
  have hmarked : markBetween false [word, "=".toList, ":hv".toList] =
      [.plain word, .plain "=".toList, .plain ":hv".toList] := by
    rw [markBetween]
    split_ifs with hbetween hand
    · rfl
    · exact absurd hand.1 (by decide)
    · rfl
  have hcut : ∀ mark, mark ∉ [Word.plain "=".toList, Word.plain ":hv".toList] →
      cutAt mark [] [.plain word, .plain "=".toList, .plain ":hv".toList] =
        [[.plain word, .plain "=".toList, .plain ":hv".toList]] := by
    intro mark hmark
    rw [cutAt, if_neg (by simp), cutAt_of_not_mem hmark]
    rfl
  have htext : join [' '] ([Word.plain word, .plain "=".toList, .plain ":hv".toList].map
      Word.text) = unmask word ++ " = :hv".toList := List.append_assoc _ [' '] _
  rw [termTexts, hmarked, hcut _ (by decide), List.map_singleton, hcut _ (by decide),
    List.map_singleton, htext]

/-- What the condition on a plain name is compiled to. -/
theorem compile_selection {name : String} (h : IsPlain name) (value : Json) :
    compile {} (name ++ " = :hv") [value] =
      .ok (⟨placeholder 0 ++ " = :hv", [(placeholder 0, name)], [(":hv", .ofDocument value)],
        [⟨.comparison, false⟩]⟩, ⟨[name], [":hv"]⟩) := by
  have hwords := words_selection h.isName
  refine compile_eq_ok_iff.mpr ⟨?_, [[selection name]], ?_, rfl, ?_, rfl⟩
  · rw [hwords]
    exact List.cons_ne_nil _ _
  · have hread := @readGroups_write [] [[selection name]] (by simpa using h.valid_selection)
      (fresh_singleton_iff.mpr ⟨by decide, List.not_mem_nil⟩)
    rw [hwords, termTexts_selection, h.unmasked, ← write_selection String.toList]
    exact hread
  · have hplace : placeholderOf [name] name = placeholder 0 := by simp [placeholderOf]
    have htext : writeGroups (fun other => (placeholderOf [name] other).toList) [[selection name]] =
        (placeholder 0 ++ " = :hv").toList := by
      rw [writeGroups, List.map_singleton, List.map_singleton, write_selection, hplace,
        String.toList_append]
      rfl
    have hcompiled : compiled [name] [[selection name]] [value] =
        ⟨String.ofList (writeGroups (fun other => (placeholderOf [name] other).toList)
            [[selection name]]), [(placeholderOf [name] name, name)], [(":hv", .ofDocument value)],
          [⟨.comparison, false⟩]⟩ := rfl
    rw [htext, hplace, String.ofList_toList] at hcompiled
    exact hcompiled.symm

/-- Only a plain name is bound by itself. -/
theorem isPlain_of_compile {name : String} {after : Namespace} {value : Json} {c : Compiled}
    (h : compile {} (name ++ " = :hv") [value] = .ok (c, after)) {place : ℕ}
    (htext : c.text = placeholder place ++ " = :hv")
    (hnames : c.names = [(placeholder place, name)]) : IsPlain name := by
  have hmem : (placeholder place, name) ∈ c.names := hnames ▸ List.mem_singleton_self _
  obtain ⟨hisName, hdot⟩ := isName_of_compile h hmem
  refine ⟨hisName, hdot, ?_, ?_⟩
  · rintro rfl
    have hfails : compile {} ("NOT" ++ " = :hv") [value] = .error (.unknownTerm "= :hv") := by rfl
    rw [hfails] at h
    contradiction
  · -- the expansion has the name itself, the source has it without masks, and no blanks differ
    have hexpand : c.expand.toList = name.toList ++ " = :hv".toList := by
      obtain ⟨word, hplaceholder, hword⟩ := exists_toList_placeholder place
      have hget : Dict.get? c.names (placeholder place) = some name := by
        rw [hnames, Dict.get?_cons, if_pos rfl]
      have hhead : ∀ d ∈ " = :hv".toList.head?, isWordChar d = false := by
        intro d hd
        obtain rfl : ' ' = d := by simpa using hd
        decide
      have hrest : Compiled.expandFrom c.names none " = :hv".toList = " = :hv".toList := by
        have hself := @expandFrom_append c.names " = :hv".toList (by decide) []
        rwa [List.append_nil] at hself
      rw [Compiled.expand, String.toList_ofList, htext, String.toList_append,
        expandFrom_placeholder hplaceholder hword hget hhead, hrest]
    have hsqueeze := squeeze_expand_of_compile h
    rw [hexpand, words_selection hisName, termTexts_selection, List.map_singleton, join, join,
      squeeze_append, squeeze_append] at hsqueeze
    have hblank := (not_blank_of_isName hisName).2
    have hname := List.append_cancel_right hsqueeze
    rw [squeeze_of_not_blank hblank, squeeze_of_not_blank fun d hd =>
      hblank d (mem_of_mem_unmask hd)] at hname
    exact hname.symm

end Condition

namespace Query

open Condition (placeholder IsPlain)

/-! ## Hash filters -/

/-- Whether a query selects the items whose attribute of a name has a value: its hash condition is
    one comparison, which is not negated, and binds nothing but this name and this value. -/
def Selects (query : Query) (name : String) (value : Attribute) : Prop :=
  ∃ c place, query.hash = some c ∧ c.text = placeholder place ++ " = :hv" ∧
    c.terms = [⟨.comparison, false⟩] ∧ c.names = [(placeholder place, name)] ∧
    c.values = [(":hv", value)]

theorem error_onTable_eq_none_iff {table : String} :
    (onTable table).error? = none ↔ table ≠ "" := by
  simp [onTable]

section
variable {table name : String} {value : Json} {c : Condition.Compiled}

/-- A hash filter as the first call: its condition is compiled in the namespace of no names. -/
theorem hashFilter_onTable_of_ok (htable : table ≠ "") (hname : name ≠ "")
    {names : Condition.Namespace}
    (h : Condition.compile {} (name ++ " = :hv") [value] = .ok (c, names)) :
    (onTable table).hashFilter name value = { onTable table with names, hash := some c } := by
  rw [hashFilter, if_neg (by simpa using hname), if_neg (by simp [onTable]),
    compile_eq_ok_iff.mpr h]
  exact attempt_ok (error_onTable_eq_none_iff.mpr htable) _

theorem exists_compile_of_hashFilter (htable : table ≠ "") (hname : name ≠ "")
    (h : ((onTable table).hashFilter name value).hash = some c) :
    ∃ names, Condition.compile {} (name ++ " = :hv") [value] = .ok (c, names) := by
  rw [hashFilter, if_neg (by simpa using hname), if_neg (by simp [onTable])] at h
  cases hcompile : (onTable table).compile (name ++ " = :hv") [value] with
  | error error =>
    rw [hcompile] at h
    simp only [bind, Except.bind, attempt_error (error_onTable_eq_none_iff.mpr htable)] at h
    contradiction
  | ok result =>
    rw [hcompile] at h
    simp only [bind, Except.bind, pure, Except.pure,
      attempt_ok (error_onTable_eq_none_iff.mpr htable)] at h
    obtain rfl := Option.some.inj h
    exact ⟨_, compile_eq_ok_iff.mp hcompile⟩

/-- Without a name of the table or the attribute a hash filter fails. -/
theorem ne_empty_of_hashFilter (h : ((onTable table).hashFilter name value).error? = none) :
    table ≠ "" ∧ name ≠ "" := by
  have htable : table ≠ "" := by
    rintro rfl
    rw [hashFilter, attempt_of_error rfl] at h
    exact absurd h (by simp [onTable])
  refine ⟨htable, ?_⟩
  rintro rfl
  rw [hashFilter, if_pos (by simp), attempt_error (error_onTable_eq_none_iff.mpr htable)] at h
  contradiction

end

/-- Which names a hash filter selects by themselves, as the first call on a query: exactly the plain
    ones. A filter on any other name fails, or it selects by something else. -/
theorem hashFilter_selects_iff (table name : String) (value : Json) :
    (((onTable table).hashFilter name value).error? = none ∧
      ((onTable table).hashFilter name value).Selects name (.ofDocument value)) ↔
        table ≠ "" ∧ IsPlain name := by
  constructor
  · rintro ⟨hnone, c, place, hhash, htext, -, hnames, -⟩
    obtain ⟨htable, hname⟩ := ne_empty_of_hashFilter hnone
    refine ⟨htable, ?_⟩
    obtain ⟨names, hcompile⟩ := exists_compile_of_hashFilter htable hname hhash
    exact Condition.isPlain_of_compile hcompile htext hnames
  · rintro ⟨htable, hname⟩
    have hne : name ≠ "" := by
      rintro rfl
      exact absurd hname.isName (by decide)
    rw [hashFilter_onTable_of_ok htable hne (Condition.compile_selection hname value)]
    exact ⟨error_onTable_eq_none_iff.mpr htable, _, 0, rfl, rfl, rfl, rfl, rfl⟩

/-- A name with a dot is read as a path of two attributes. -/
theorem not_selects_dottedName : ¬ ∀ (table name : String) (value : Json), name ≠ "" →
    ((onTable table).hashFilter name value).error? = none →
      ((onTable table).hashFilter name value).Selects name (.ofDocument value) := by
  intro h
  obtain ⟨c, place, hhash, -, -, hnames, -⟩ := h "tracks" "a.b" (.string "x") (by decide) rfl
  have hcompiled : ((onTable "tracks").hashFilter "a.b" (.string "x")).hash.map
      Condition.Compiled.names = some [("#n0", "a"), ("#n1", "b")] := by rfl
  rw [hhash, Option.map_some, hnames] at hcompiled
  simp at hcompiled

end Query

end TableClient
