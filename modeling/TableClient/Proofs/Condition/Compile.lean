import Mathlib
import TableClient.Proofs.Condition.Expansion
import TableClient.Proofs.Condition.Keywords

/-!
# Compiling what was written

A condition that is written from valid terms is compiled to the same terms, provided that its words
are cut where the terms were joined: no term holds a word that would cut it, and no `AND` between
two groups is taken for the end of a range.

Results:
* `compile_eq_ok_iff`: what a compile succeeds with.
* `valid_of_readGroups`, `exists_terms_of_compile`: what a successful compile has read.
* `isName_of_compile`: which names a compiled condition can bind.
* `compileAlone_write`: terms that fit their places are compiled from the text they are written as.
-/

namespace TableClient.Condition

open Text

/-- A compile succeeds if the terms can be read and there is a value for each placeholder. -/
theorem compile_eq_ok_iff {names after : Namespace} {text : String} {values : List Json}
    {c : Compiled} : compile names text values = .ok (c, after) ↔ words text.toList ≠ [] ∧
      ∃ groups, readGroups names.bound (termTexts (words text.toList)) = .ok groups ∧
        (allValues groups).length = values.length ∧
        c = compiled (addNames names.names (allNames groups)) groups values ∧
        after = ⟨addNames names.names (allNames groups), names.bound ++ allValues groups⟩ := by
  rw [compile]
  cases hwords : words text.toList with
  | nil => simp
  | cons word rest =>
    simp only [bind_eq_ok_iff]
    constructor
    · rintro ⟨groups, hgroups, h⟩
      split_ifs at h with hcount
      obtain ⟨rfl, rfl⟩ := Prod.mk.inj (Except.ok.inj h)
      exact ⟨by simp, groups, hgroups, not_not.mp hcount, rfl, rfl⟩
    · rintro ⟨-, groups, hgroups, hcount, rfl, rfl⟩
      exact ⟨groups, hgroups, if_neg (not_not.mpr hcount)⟩

theorem forall_right_of_forall₂ {α β : Type} {R : α → β → Prop} {P : α → Prop} {Q : β → Prop}
    {xs : List α} {ys : List β} (h : List.Forall₂ R xs ys) (hxs : ∀ x ∈ xs, P x)
    (hstep : ∀ x y, R x y → P x → Q y) : ∀ y ∈ ys, Q y := by
  induction h with
  | nil => simp
  | @cons x y xs ys hxy _ ih =>
    intro z hz
    rcases List.mem_cons.mp hz with rfl | hz
    · exact hstep x _ hxy (hxs x List.mem_cons_self)
    · exact ih (fun w hw => hxs w (List.mem_cons_of_mem x hw)) z hz

/-- The terms that are read from a condition are valid, and their value placeholders were free. -/
theorem valid_of_readGroups {text : String} (hne : words text.toList ≠ []) {bound : List String}
    {groups : List (List Term)}
    (h : readGroups bound (termTexts (words text.toList)) = .ok groups) :
    (∀ group ∈ groups, ∀ term ∈ group, term.Valid) ∧ Fresh bound (allValues groups) := by
  obtain ⟨hspelled, hfresh⟩ := (readGroups_eq_ok_iff
    (spaced_of_mem_termTexts hne fun word hword => mem_words hword)).mp h
  refine ⟨?_, hfresh⟩
  refine forall_right_of_forall₂ hspelled (P := fun _ => True) (by simp) ?_
  intro texts terms hterms _
  exact forall_right_of_forall₂ hterms (P := fun _ => True) (by simp) fun _ _ hterm _ => hterm.1

/-- What a successful compile has read: valid terms, whose value placeholders were not taken. -/
theorem exists_terms_of_compile {names after : Namespace} {text : String} {values : List Json}
    {c : Compiled} (h : compile names text values = .ok (c, after)) : ∃ groups,
      (∀ group ∈ groups, ∀ term ∈ group, term.Valid) ∧ Fresh names.bound (allValues groups) ∧
        (allValues groups).length = values.length ∧
        c = compiled (addNames names.names (allNames groups)) groups values ∧
        after = ⟨addNames names.names (allNames groups), names.bound ++ allValues groups⟩ := by
  obtain ⟨hne, groups, hread, hcount, hc, hafter⟩ := compile_eq_ok_iff.mp h
  obtain ⟨hvalid, hfresh⟩ := valid_of_readGroups hne hread
  exact ⟨groups, hvalid, hfresh, hcount, hc, hafter⟩

/-- The names that a compiled condition binds can be written in a path, each as one segment. -/
theorem isName_of_compile {names after : Namespace} {text : String} {values : List Json}
    {c : Compiled} (h : compile names text values = .ok (c, after)) {entry : String × String}
    (hentry : entry ∈ c.names) : isName entry.2.toList = true ∧ '.' ∉ entry.2.toList := by
  obtain ⟨groups, hvalid, -, -, rfl, -⟩ := exists_terms_of_compile h
  have hentry := (Dict.mem_of_mem_insertAll hentry).resolve_left List.not_mem_nil
  obtain ⟨name, hname, rfl⟩ := List.mem_map.mp hentry
  obtain ⟨term, hterm, hname⟩ := List.mem_flatMap.mp hname
  obtain ⟨group, hgroup, hterm⟩ := List.mem_flatten.mp hterm
  obtain ⟨segment, hsegment, rfl⟩ := List.mem_map.mp hname
  have hvalid := (hvalid group hgroup term hterm).test.path.segments segment hsegment
  exact ⟨hvalid.isName, hvalid.noDot⟩

/-! ## The words of a written condition -/

theorem isWord_of_keyword {word : List Char} (h : word ∈ keywords) :
    word ≠ [] ∧ ∀ c ∈ word, isBlank c = false := by
  obtain ⟨hne, hchars⟩ := keyword_chars h
  exact ⟨hne, fun c hc => (isDelimiter_eq_false_iff.mp (hchars c hc)).1⟩

theorem Term.Valid.mem_words {term : Term} (h : term.Valid) :
    ∀ word ∈ term.words, word ≠ [] ∧ ∀ c ∈ word, isBlank c = false :=
  h.spaced_write.mem_split

theorem Term.join_words (term : Term) : join [' '] term.words = term.write String.toList :=
  join_split ' ' _

/-- The words of a group that is written, one list for each term. -/
def groupWords (group : List Term) : List (List (List Char)) := group.map Term.words

/-- The text of words that are joined to groups. -/
theorem join_joinGroups {groups : List (List (List (List Char)))}
    (h : ∀ group ∈ groups, group ≠ [] ∧ ∀ words ∈ group, words ≠ []) :
    join [' '] (joinGroups groups) = join " AND ".toList
      (groups.map fun group => join " OR ".toList (group.map (join [' ']))) := by
  have hrows : ∀ row ∈ groups.map joinTerms, row ≠ [] := by
    intro row hrow
    obtain ⟨group, hgroup, rfl⟩ := List.mem_map.mp hrow
    exact intercalate_ne_nil (h group hgroup).1 (h group hgroup).2
  rw [joinGroups, join_intercalate hrows, List.map_map]
  refine congrArg (join " AND ".toList) (List.map_congr_left fun group hgroup => ?_)
  exact join_intercalate (h group hgroup).2

theorem mem_joinGroups {groups : List (List (List (List Char)))} {word : List Char}
    (h : word ∈ joinGroups groups) :
    word = "AND".toList ∨ word = "OR".toList ∨ ∃ group ∈ groups, ∃ words ∈ group, word ∈ words := by
  rcases mem_intercalate h with hand | ⟨row, hrow, h⟩
  · exact .inl (List.mem_singleton.mp hand)
  · obtain ⟨group, hgroup, rfl⟩ := List.mem_map.mp hrow
    rcases mem_intercalate h with hor | ⟨words, hwords, h⟩
    · exact .inr (.inl (List.mem_singleton.mp hor))
    · exact .inr (.inr ⟨group, hgroup, words, hwords, h⟩)

theorem mem_joinGroups_of_mem {groups : List (List (List (List Char)))}
    {group : List (List (List Char))} {words : List (List Char)} {word : List Char}
    (hgroup : group ∈ groups) (hwords : words ∈ group) (hword : word ∈ words) :
    word ∈ joinGroups groups :=
  mem_intercalate_of_mem (List.mem_map_of_mem hgroup) (mem_intercalate_of_mem hwords hword)

/-- The words of a written condition. -/
theorem words_writeGroups {groups : List (List Term)}
    (hvalid : ∀ group ∈ groups, group ≠ [] ∧ ∀ term ∈ group, term.Valid) :
    words (writeGroups String.toList groups) = joinGroups (groups.map groupWords) := by
  have hwrite : writeGroups String.toList groups =
      join [' '] (joinGroups (groups.map groupWords)) := by
    rw [join_joinGroups, List.map_map, writeGroups]
    · refine congrArg (join " AND ".toList) (List.map_congr_left fun group _ => ?_)
      rw [Function.comp_apply, groupWords, List.map_map]
      exact congrArg (join " OR ".toList) (List.map_congr_left fun term _ => term.join_words.symm)
    · intro group hgroup
      obtain ⟨terms, hterms, rfl⟩ := List.mem_map.mp hgroup
      refine ⟨by simpa [groupWords] using (hvalid terms hterms).1, fun words hwords => ?_⟩
      obtain ⟨term, -, rfl⟩ := List.mem_map.mp hwords
      exact term.words_ne_nil
  rw [hwrite]
  refine words_join fun word hword => ?_
  rcases mem_joinGroups hword with rfl | rfl | ⟨group, hgroup, words, hwords, hword⟩
  · exact isWord_of_keyword (by decide)
  · exact isWord_of_keyword (by decide)
  · obtain ⟨terms, hterms, rfl⟩ := List.mem_map.mp hgroup
    obtain ⟨term, hterm, rfl⟩ := List.mem_map.mp hwords
    exact ((hvalid terms hterms).2 term hterm).mem_words word hword

/-- Terms that fit their places are compiled from the text they are written as. -/
theorem compileAlone_write {groups : List (List Term)} {values : List Json} (hne : groups ≠ [])
    (hvalid : ∀ group ∈ groups, group ≠ [] ∧ ∀ term ∈ group, term.Valid)
    (hfits : ∀ group ∈ groups, GroupFits true false (groupWords group))
    (hends : ∀ group ∈ groups.dropLast, (groupWords group).foldl waits false = false)
    (hseparator : '\x1f' ∉ writeGroups String.toList groups)
    (hfresh : Fresh [] (allValues groups)) (hcount : (allValues groups).length = values.length) :
    compileAlone (String.ofList (writeGroups String.toList groups)) values =
      .ok (compiled (addNames [] (allNames groups)) groups values) := by
  have hwords := words_writeGroups hvalid
  have htexts : termTexts (joinGroups (groups.map groupWords)) =
      groups.map (List.map (Term.write String.toList)) := by
    rw [termTexts_joinGroups (by simpa using hne), List.map_map]
    · refine List.map_congr_left fun group _ => ?_
      rw [Function.comp_apply, groupWords, List.map_map]
      exact List.map_congr_left fun term _ => term.join_words
    · intro group hgroup
      obtain ⟨terms, hterms, rfl⟩ := List.mem_map.mp hgroup
      exact ⟨by simpa [groupWords] using (hvalid terms hterms).1, hfits terms hterms⟩
    · intro group hgroup
      rw [← List.map_dropLast] at hgroup
      obtain ⟨terms, hterms, rfl⟩ := List.mem_map.mp hgroup
      exact hends terms hterms
    · intro group hgroup words hterm word hword hmem
      have hword := mem_joinGroups_of_mem hgroup hterm hword
      rw [← hwords] at hword
      exact hseparator (mem_of_mem_words hword hmem)
  have hread : readGroups [] (termTexts (words (String.ofList
      (writeGroups String.toList groups)).toList)) = .ok groups := by
    rw [String.toList_ofList, hwords, htexts]
    exact readGroups_write (fun group hgroup => (hvalid group hgroup).2) hfresh
  have hnonempty : words (String.ofList (writeGroups String.toList groups)).toList ≠ [] := by
    rw [String.toList_ofList, hwords]
    refine intercalate_ne_nil (by simpa using hne) fun row hrow => ?_
    rw [List.map_map] at hrow
    obtain ⟨group, hgroup, rfl⟩ := List.mem_map.mp hrow
    refine intercalate_ne_nil (by simpa [groupWords] using (hvalid group hgroup).1) ?_
    intro words hwords
    obtain ⟨term, -, rfl⟩ := List.mem_map.mp hwords
    exact term.words_ne_nil
  have hcompile := (@compile_eq_ok_iff {} _ _ values _).mpr
    ⟨hnonempty, groups, hread, hcount, rfl, rfl⟩
  rw [compileAlone, hcompile]
  rfl

end TableClient.Condition
