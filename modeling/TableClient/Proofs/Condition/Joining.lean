import Mathlib
import TableClient.Proofs.Condition.Renaming

/-!
# Joining conditions of any namespaces

Conditions that do not share a namespace may have the same placeholder for different names, or bind
the same value placeholder. Otherwise they can be joined, and the joined condition is the same
whether the sides are expanded before or after. That needs an invariant of all conditions that can
be met: each placeholder in a text is bound by the condition itself, so that it stands for the same
name among the names of both sides.

Results:
* `Compiled.Formed.closed`, `Compiled.Formed.sorted`: what every condition that can be met is like.
* `nameConflict?_eq_some_iff`, `valueConflict?_eq_some_iff`: the placeholder that is reported.
* `Compiled.expand_join`: when two conditions can be joined, and what they are joined to.
-/

namespace TableClient.Condition

/-! ## Conditions that can be met -/

/-- A condition has at least one term. -/
theorem terms_ne_nil_of_compile {space after : Namespace} {text : String} {values : List Json}
    {c : Compiled} (h : compile space text values = .ok (c, after)) : c.terms ≠ [] := by
  obtain ⟨hne, groups, hread, -, rfl, -⟩ := compile_eq_ok_iff.mp h
  obtain ⟨hspelled, -⟩ := (readGroups_eq_ok_iff
    (spaced_of_mem_termTexts hne fun word hword => Text.mem_words hword)).mp hread
  -- neither groups nor terms are lost, and cutting leaves at least one of each
  have htexts : ∃ term more others,
      termTexts (Text.words text.toList) = (term :: more) :: others := by
    rw [termTexts]
    obtain ⟨group, others, hgroups⟩ := List.exists_cons_of_ne_nil
      (cutAt_ne_nil andMark [] (markBetween false (Text.words text.toList)))
    obtain ⟨term, more, hterms⟩ := List.exists_cons_of_ne_nil (cutAt_ne_nil orMark [] group)
    exact ⟨_, _, _, by rw [hgroups, List.map_cons, hterms, List.map_cons]⟩
  obtain ⟨text, more, others, htexts⟩ := htexts
  rw [htexts] at hspelled
  obtain ⟨terms, rest, hterms, -, rfl⟩ := List.forall₂_cons_left_iff.mp hspelled
  obtain ⟨term, rest, -, -, rfl⟩ := List.forall₂_cons_left_iff.mp hterms
  simp [compiled]

namespace Compiled

/-- A condition that was compiled in some namespace, or joined from such conditions. -/
inductive Formed : Compiled → Prop
  | compiled {space after : Namespace} {text : String} {values : List Json} {c : Compiled}
    (h : compile space text values = .ok (c, after)) : Formed c
  | joined {connective : Connective} {left right c : Compiled} (hleft : Formed left)
    (hright : Formed right) (h : join connective left right = .ok c) : Formed c

theorem join_eq_ok_iff {connective : Connective} {left right c : Compiled} :
    join connective left right = .ok c ↔ nameConflict? left.names right.names = none ∧
      valueConflict? left.values right.values = none ∧
      c = ⟨left.grouped ++ " " ++ connective.word ++ " " ++ right.grouped,
        Dict.insertAll left.names right.names, Dict.insertAll left.values right.values,
        left.terms ++ right.terms⟩ := by
  rw [join]
  cases nameConflict? left.names right.names with
  | some mark => simp
  | none =>
    cases valueConflict? left.values right.values with
    | some mark => simp
    | none => simp [eq_comm]

theorem join_eq_error_iff {connective : Connective} {left right : Compiled}
    {error : ConditionError} : join connective left right = .error error ↔
      ∃ mark, error = .duplicatePlaceholder mark ∧
        (nameConflict? left.names right.names = some mark ∨
          nameConflict? left.names right.names = none ∧
            valueConflict? left.values right.values = some mark) := by
  rw [join]
  cases nameConflict? left.names right.names with
  | some mark => simp [eq_comm]
  | none =>
    cases valueConflict? left.values right.values with
    | some mark => simp [eq_comm]
    | none => simp

namespace Formed

variable {c : Compiled}

/-- A condition binds exactly the placeholders of its text. -/
theorem closed (h : c.Formed) : c.Closed := by
  induction h with
  | compiled h => exact closed_of_compile h
  | joined _ _ h hleft hright => exact hleft.join hright h

/-- Placeholders are bound in the order of their texts. -/
theorem sorted (h : c.Formed) : Dict.Sorted c.names ∧ Dict.Sorted c.values := by
  induction h with
  | compiled h =>
    obtain ⟨groups, -, -, -, rfl, -⟩ := exists_terms_of_compile h
    exact ⟨Dict.sorted_ofList _, Dict.sorted_ofList _⟩
  | joined _ _ h hleft _ =>
    obtain ⟨-, -, rfl⟩ := join_eq_ok_iff.mp h
    exact ⟨Dict.sorted_insertAll hleft.1 _, Dict.sorted_insertAll hleft.2 _⟩

theorem terms_ne_nil (h : c.Formed) : c.terms ≠ [] := by
  induction h with
  | compiled h => exact terms_ne_nil_of_compile h
  | joined _ _ h hleft _ =>
    rw [terms_join h]
    exact List.append_ne_nil_of_left_ne_nil hleft _

end Formed

/-! ## Conflicts -/

/-- The placeholders that stand for different names on two sides. -/
def clashingMarks (names others : Dict String) : Set String :=
  {mark | ∃ name other, Dict.get? names mark = some name ∧ Dict.get? others mark = some other ∧
    name ≠ other}

/-- The placeholders that have a value on both sides. -/
def sharedMarks (values others : Dict Attribute) : Set String :=
  {mark | mark ∈ Dict.keys values ∧ mark ∈ Dict.keys others}

theorem clashingMarks_eq (names others : Dict String) : clashingMarks names others =
    {mark | ∃ other, Dict.get? others mark = some other ∧
      ((Dict.get? names mark).any (· != other)) = true} := by
  ext mark
  constructor
  · rintro ⟨name, other, hname, hother, hne⟩
    exact ⟨other, hother, (Option.any_eq_true _ _).mpr ⟨name, hname, by simpa using hne⟩⟩
  · rintro ⟨other, hother, hconflict⟩
    obtain ⟨name, hname, hne⟩ := (Option.any_eq_true _ _).mp hconflict
    exact ⟨name, other, hname, hother, by simpa using hne⟩

theorem sharedMarks_eq (values others : Dict Attribute) : sharedMarks values others =
    {mark | ∃ other, Dict.get? others mark = some other ∧ Dict.contains values mark = true} := by
  ext mark
  constructor
  · rintro ⟨hvalue, hother⟩
    obtain ⟨other, hother⟩ := Dict.mem_keys_iff.mp hother
    exact ⟨other, hother, Option.isSome_iff_exists.mpr (Dict.mem_keys_iff.mp hvalue)⟩
  · rintro ⟨other, hother, hvalue⟩
    exact ⟨Dict.mem_keys_iff.mpr (Option.isSome_iff_exists.mp hvalue),
      Dict.mem_keys_of_get? hother⟩

section
variable {names otherNames : Dict String} {values otherValues : Dict Attribute} {mark : String}

/-- The first conflict of names that is found is the least one. -/
theorem nameConflict?_eq_some_iff (h : Dict.Sorted otherNames) :
    nameConflict? names otherNames = some mark ↔
      IsLeast (clashingMarks names otherNames) mark := by
  rw [clashingMarks_eq]
  exact h.find?_fst

/-- The first conflict of values that is found is the least one. -/
theorem valueConflict?_eq_some_iff (h : Dict.Sorted otherValues) :
    valueConflict? values otherValues = some mark ↔
      IsLeast (sharedMarks values otherValues) mark := by
  rw [sharedMarks_eq]
  exact h.find?_fst

theorem nameConflict?_eq_none_iff (h : Dict.Sorted otherNames) :
    nameConflict? names otherNames = none ↔ clashingMarks names otherNames = ∅ := by
  rw [clashingMarks_eq]
  exact h.find?_fst_eq_none_iff

theorem valueConflict?_eq_none_iff (h : Dict.Sorted otherValues) :
    valueConflict? values otherValues = none ↔ sharedMarks values otherValues = ∅ := by
  rw [sharedMarks_eq]
  exact h.find?_fst_eq_none_iff

end

/-- Without a clash a placeholder that both sides know stands for the same name. -/
theorem eq_of_clashingMarks_eq_empty {names others : Dict String}
    (h : clashingMarks names others = ∅) {mark name other : String}
    (hname : Dict.get? names mark = some name) (hother : Dict.get? others mark = some other) :
    name = other := by
  by_contra hne
  have hmem : mark ∈ clashingMarks names others := ⟨name, other, hname, hother, hne⟩
  rw [h] at hmem
  exact hmem

/-! ## Expansion of a joined condition -/

/-- The expansion of a condition as one side of a joined one: in parentheses if it has several
    terms. -/
def groupedExpansion (c : Compiled) : String :=
  if 1 < c.terms.length then "(" ++ c.expand ++ ")" else c.expand

/-- A condition may be expanded with more names than its own. -/
theorem expandText_grouped_eq {names : Dict String} {c : Compiled} (hc : c.Closed)
    (h : ∀ mark name, Dict.get? c.names mark = some name → Dict.get? names mark = some name) :
    expandText names c.grouped = c.groupedExpansion := by
  have htext : expandText names c.text = c.expand := by
    refine congrArg String.ofList (expandFrom_congr fun mark hmark => ?_)
    obtain ⟨name, hname⟩ := Dict.mem_keys_iff.mp ((hc.names mark).mp hmark)
    rw [hname, h mark name hname]
  rw [expandText_grouped, htext, groupedExpansion]

/-- When two conditions can be joined, and what they are joined to. They conflict if a placeholder
    stands for different names or a value placeholder is bound on both sides, and the least such
    placeholder is reported, names before values. Else the joined condition has the names and values
    of both sides and several terms, and it may be expanded after its sides are joined or before. -/
theorem expand_join {left right : Compiled} (hleft : left.Formed) (hright : right.Formed)
    (connective : Connective) :
    let names := clashingMarks left.names right.names
    let values := sharedMarks left.values right.values
    ((∃ c, join connective left right = .ok c) ↔ names = ∅ ∧ values = ∅) ∧
      (∀ error, join connective left right = .error error ↔
        ∃ mark, error = .duplicatePlaceholder mark ∧
          (IsLeast names mark ∨ names = ∅ ∧ IsLeast values mark)) ∧
      ∀ c, join connective left right = .ok c →
        c.expand = left.groupedExpansion ++ " " ++ connective.word ++ " " ++
            right.groupedExpansion ∧
          (∀ mark name, Dict.get? c.names mark = some name ↔
            Dict.get? left.names mark = some name ∨ Dict.get? right.names mark = some name) ∧
          (∀ mark value, Dict.get? c.values mark = some value ↔
            Dict.get? left.values mark = some value ∨ Dict.get? right.values mark = some value) ∧
          c.onlyShape? = none := by
  intro names values
  obtain ⟨hnames, hvalues⟩ := hright.sorted
  have hnoName : nameConflict? left.names right.names = none ↔ names = ∅ :=
    nameConflict?_eq_none_iff hnames
  have hnoValue : valueConflict? left.values right.values = none ↔ values = ∅ :=
    valueConflict?_eq_none_iff hvalues
  refine ⟨?_, fun error => ?_, fun c hc => ?_⟩
  · simp only [join_eq_ok_iff, hnoName, hnoValue, exists_and_left, exists_eq, and_true]
  · simp only [join_eq_error_iff, hnoName, nameConflict?_eq_some_iff hnames,
      valueConflict?_eq_some_iff hvalues]
    rfl
  · obtain ⟨hnoNames, hnoValues, rfl⟩ := join_eq_ok_iff.mp hc
    have hunited : ∀ {mark name}, Dict.get? (Dict.insertAll left.names right.names) mark =
        some name ↔ Dict.get? left.names mark = some name ∨
          Dict.get? right.names mark = some name :=
      Dict.get?_insertAll_eq_some_iff hnames (eq_of_clashingMarks_eq_empty (hnoName.mp hnoNames))
    refine ⟨?_, fun mark name => hunited, fun mark value => ?_, ?_⟩
    · have hexpandLeft := expandText_grouped_eq hleft.closed fun mark name hname =>
        hunited.mpr (.inl hname)
      have hexpandRight := expandText_grouped_eq hright.closed fun mark name hname =>
        hunited.mpr (.inr hname)
      rw [← hexpandLeft, ← hexpandRight]
      exact expandText_joined _ connective left.grouped right.grouped
    · refine Dict.get?_insertAll_eq_some_iff hvalues fun {mark _ _} hvalue hother => ?_
      have hmem : mark ∈ values := ⟨Dict.mem_keys_of_get? hvalue, Dict.mem_keys_of_get? hother⟩
      rw [hnoValue.mp hnoValues] at hmem
      exact absurd hmem (Set.notMem_empty mark)
    · obtain ⟨first, more, hfirst⟩ := List.exists_cons_of_ne_nil hleft.terms_ne_nil
      obtain ⟨second, others, hsecond⟩ := List.exists_cons_of_ne_nil hright.terms_ne_nil
      have hterms : left.terms ++ right.terms = first :: (more ++ second :: others) := by
        rw [hfirst, hsecond, List.cons_append]
      rw [onlyShape?, hterms]
      cases more <;> rfl

/-- A condition of two terms. -/
def twoTerms : Compiled :=
  ⟨"#n0 = :x OR #n1 = :y", [("#n0", "a"), ("#n1", "b")], [(":x", .number "1"), (":y", .number "2")],
    [⟨.comparison, false⟩, ⟨.comparison, false⟩]⟩

/-- A condition that was compiled behind it, in the same namespace. -/
def thirdTerm : Compiled :=
  ⟨"#n2 > :z", [("#n2", "c")], [(":z", .number "3")], [⟨.comparison, false⟩]⟩

/-- A condition of another namespace, whose placeholders are both taken. -/
def foreignTerm : Compiled :=
  ⟨"#n0 = :x", [("#n0", "c")], [(":x", .number "3")], [⟨.comparison, false⟩]⟩

/-- The conditions of one namespace are joined; with the third one there are two conflicts, and the
    name is reported. -/
theorem expand_join_twoTerms : twoTerms.Formed ∧ thirdTerm.Formed ∧ foreignTerm.Formed ∧
    (∃ c, join .and twoTerms thirdTerm = .ok c ∧
      c.expand = "(a = :x OR b = :y) AND c > :z" ∧ Dict.get? c.names "#n2" = some "c") ∧
    join .or twoTerms foreignTerm = .error (.duplicatePlaceholder "#n0") := by
  have htwo : compile {} "a = :x OR b = :y" [.int 1, .int 2] =
      .ok (twoTerms, ⟨["a", "b"], [":x", ":y"]⟩) := by rfl
  have hthird : compile ⟨["a", "b"], [":x", ":y"]⟩ "c > :z" [.int 3] =
      .ok (thirdTerm, ⟨["a", "b", "c"], [":x", ":y", ":z"]⟩) := by rfl
  have hforeign : compile {} "c = :x" [.int 3] = .ok (foreignTerm, ⟨["c"], [":x"]⟩) := by rfl
  have hleft : twoTerms.Formed := .compiled htwo
  have hright : thirdTerm.Formed := .compiled hthird
  have hother : foreignTerm.Formed := .compiled hforeign
  obtain ⟨hjoins, -, hexpands⟩ := expand_join hleft hright .and
  obtain ⟨-, hfails, -⟩ := expand_join hleft hother .or
  refine ⟨hleft, hright, hother, ?_, ?_⟩
  · obtain ⟨c, hc⟩ := hjoins.mpr
      ⟨(nameConflict?_eq_none_iff hright.sorted.1).mp rfl,
        (valueConflict?_eq_none_iff hright.sorted.2).mp rfl⟩
    obtain ⟨hexpand, hnames, -, -⟩ := hexpands c hc
    exact ⟨c, hc, hexpand.trans rfl, (hnames _ _).mpr (.inr rfl)⟩
  · exact (hfails _).mpr
      ⟨_, rfl, .inl ((nameConflict?_eq_some_iff hother.sorted.1).mp rfl)⟩

end Compiled

end TableClient.Condition
