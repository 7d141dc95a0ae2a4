import Mathlib
import TableClient.Condition.Reader
import TableClient.Proofs.Text.Pieces

/-!
# Cutting a condition into terms

The words of a condition are cut at `AND` into groups and the groups at `OR` into terms. An `AND`
that closes a `BETWEEN` does not cut, and neither does a word that would leave nothing on one side.
Which `AND`s close a `BETWEEN` depends on all that stands before them: the words are read with one
bit, which tells whether a closing `AND` is still to come.

Results:
* `markBetween_append`: marking goes on with the bit that the words before have left.
* `cutAt_intercalate`, `intercalate_cutAt`: cutting takes apart what marks join, and leaves out
  nothing.
* `termTexts_joinGroups`: terms that fit their place are the terms of the condition they make up.
* `exists_groups`: what the terms of a condition are like.
* `spaced_of_mem_termTexts`: each term of a condition is evenly spaced.
-/

namespace TableClient.Condition

open Text

/-- The word that joins groups. -/
abbrev andMark : Word := .plain "AND".toList

/-- The word that joins terms. -/
abbrev orMark : Word := .plain "OR".toList

/-! ## Marking -/

/-- Whether an `AND` is still to come behind words, when `waiting` tells it of the place before
    them. -/
def waits (waiting : Bool) : List (List Char) → Bool
  | [] => waiting
  | word :: rest =>
    if word = "BETWEEN".toList then waits true rest
    else if waiting ∧ word = "AND".toList then waits false rest
    else waits waiting rest

theorem waits_append (waiting : Bool) (words more : List (List Char)) :
    waits waiting (words ++ more) = waits (waits waiting words) more := by
  induction words generalizing waiting with
  | nil => rfl
  | cons word rest ih =>
    simp only [List.cons_append, waits]
    split_ifs <;> exact ih _

/-- Marking goes on with the bit that the words before have left. -/
theorem markBetween_append (waiting : Bool) (words more : List (List Char)) :
    markBetween waiting (words ++ more) =
      markBetween waiting words ++ markBetween (waits waiting words) more := by
  induction words generalizing waiting with
  | nil => rfl
  | cons word rest ih =>
    simp only [List.cons_append, waits, markBetween]
    split_ifs <;> rw [ih, List.cons_append]

@[simp] theorem length_markBetween (waiting : Bool) (words : List (List Char)) :
    (markBetween waiting words).length = words.length := by
  fun_induction markBetween waiting words <;> simp_all

theorem markBetween_eq_nil_iff {waiting : Bool} {words : List (List Char)} :
    markBetween waiting words = [] ↔ words = [] := by
  rw [← List.length_eq_zero_iff, length_markBetween, List.length_eq_zero_iff]

/-- What is marked in two parts was marked part by part. -/
theorem markBetween_eq_append {waiting : Bool} {words : List (List Char)} {x y : List Word}
    (h : markBetween waiting words = x ++ y) : ∃ front rest, words = front ++ rest ∧
      markBetween waiting front = x ∧ markBetween (waits waiting front) rest = y := by
  refine ⟨words.take x.length, words.drop x.length, (List.take_append_drop _ _).symm, ?_⟩
  have hlength := congrArg List.length h
  rw [length_markBetween, List.length_append] at hlength
  rw [← List.take_append_drop x.length words, markBetween_append] at h
  refine List.append_inj h ?_
  rw [length_markBetween, List.length_take]
  omega

theorem plain_mem_markBetween {waiting : Bool} {words : List (List Char)} {text : List Char}
    (h : Word.plain text ∈ markBetween waiting words) : text ∈ words := by
  induction words generalizing waiting with
  | nil => exact absurd h List.not_mem_nil
  | cons word rest ih =>
    rw [markBetween] at h
    split_ifs at h <;> rcases List.mem_cons.mp h with hword | hrest
    · exact Word.plain.inj hword ▸ List.mem_cons_self
    · exact List.mem_cons_of_mem word (ih hrest)
    · cases hword
    · exact List.mem_cons_of_mem word (ih hrest)
    · exact Word.plain.inj hword ▸ List.mem_cons_self
    · exact List.mem_cons_of_mem word (ih hrest)

/-- Where no `BETWEEN` stands and no `AND` is waited for, nothing is marked. -/
theorem markBetween_of_not_mem {waiting : Bool} {words : List (List Char)}
    (hbetween : "BETWEEN".toList ∉ words) (hand : waiting = true → "AND".toList ∉ words) :
    markBetween waiting words = words.map .plain ∧ waits waiting words = waiting := by
  induction words with
  | nil => exact ⟨rfl, rfl⟩
  | cons word rest ih =>
    obtain ⟨hword, hrest⟩ := List.ne_and_not_mem_of_not_mem_cons hbetween
    have hmore := ih hrest fun hwaiting =>
      (List.ne_and_not_mem_of_not_mem_cons (hand hwaiting)).2
    have hopen : ¬ (waiting = true ∧ word = "AND".toList) := by
      rintro ⟨hwaiting, rfl⟩
      exact hand hwaiting List.mem_cons_self
    rw [markBetween, waits, if_neg (Ne.symm hword), if_neg (Ne.symm hword), if_neg hopen,
      if_neg hopen, hmore.1]
    exact ⟨rfl, hmore.2⟩

theorem unmask_eq_self {text : List Char} (h : '\x1f' ∉ text) : unmask text = text := by
  fun_induction unmask text <;> simp_all

/-- The texts of marked words are the words. -/
theorem map_text_markBetween (waiting : Bool) {words : List (List Char)}
    (h : ∀ word ∈ words, '\x1f' ∉ word) : (markBetween waiting words).map Word.text = words := by
  induction words generalizing waiting with
  | nil => rfl
  | cons word rest ih =>
    have hword := unmask_eq_self (h word List.mem_cons_self)
    have hrest : ∀ waiting, (markBetween waiting rest).map Word.text = rest := fun waiting =>
      ih waiting fun other hother => h other (List.mem_cons_of_mem word hother)
    rw [markBetween]
    split_ifs with hbetween hand
    · rw [List.map_cons, hrest, Word.text, hword]
    · rw [List.map_cons, hrest, Word.text, hand.2]
    · rw [List.map_cons, hrest, Word.text, hword]

/-! ## Cutting -/

theorem cutAt_ne_nil (mark : Word) (piece words : List Word) : cutAt mark piece words ≠ [] := by
  fun_induction cutAt mark piece words <;> simp_all

/-- Cutting leaves out nothing but the marks. -/
theorem intercalate_cutAt (mark : Word) (piece words : List Word) :
    [mark].intercalate (cutAt mark piece words) = piece.reverse ++ words := by
  fun_induction cutAt mark piece words with
  | case1 piece => rw [List.intercalate_singleton, List.append_nil]
  | case2 piece word => rw [List.intercalate_singleton, List.reverse_cons]
  | case3 piece word next rest h ih =>
    obtain ⟨rfl, -⟩ := h
    rw [List.intercalate_cons_of_ne_nil (cutAt_ne_nil _ _ _), ih, List.append_assoc]
    rfl
  | case4 piece word next rest h ih =>
    rw [ih, List.reverse_cons, List.append_assoc]
    rfl

theorem eq_intercalate_cutAt (mark : Word) (words : List Word) :
    words = [mark].intercalate (cutAt mark [] words) := by
  rw [intercalate_cutAt]
  rfl

/-- A piece is not empty, and a mark stands in it at an end only. -/
theorem mem_cutAt {mark : Word} {piece words cut : List Word} (h : cut ∈ cutAt mark piece words)
    (hne : piece.reverse ++ words ≠ []) (hpiece : mark ∉ piece.reverse.tail) :
    cut ≠ [] ∧ mark ∉ cut.tail.dropLast := by
  fun_induction cutAt mark piece words with
  | case1 piece =>
    obtain rfl := List.mem_singleton.mp h
    exact ⟨by simpa using hne, fun hmem => hpiece (List.mem_of_mem_dropLast hmem)⟩
  | case2 piece word =>
    obtain rfl := List.mem_singleton.mp h
    refine ⟨by simp, ?_⟩
    rw [List.reverse_cons]
    cases hreverse : piece.reverse with
    | nil => simp
    | cons first rest =>
      rw [hreverse] at hpiece
      simpa using hpiece
  | case3 piece word next rest hcut ih =>
    rcases List.mem_cons.mp h with rfl | h
    · exact ⟨by simpa using hcut.2, fun hmem => hpiece (List.mem_of_mem_dropLast hmem)⟩
    · exact ih h (by simp) (by simp)
  | case4 piece word next rest hcut ih =>
    refine ih h (by simp) ?_
    rw [List.reverse_cons]
    cases hreverse : piece.reverse with
    | nil => simp
    | cons first rest =>
      have hword : word ≠ mark := by
        rintro rfl
        exact hcut ⟨rfl, by rintro rfl; simp at hreverse⟩
      rw [hreverse] at hpiece
      simpa [Ne.symm hword] using hpiece

theorem cutAt_of_not_mem {mark : Word} {piece words : List Word} (h : mark ∉ words) :
    cutAt mark piece words = [piece.reverse ++ words] := by
  fun_induction cutAt mark piece words <;> simp_all

theorem cutAt_append_mark {mark : Word} {piece words rest : List Word} (h : mark ∉ words)
    (hne : piece ≠ []) (hrest : rest ≠ []) :
    cutAt mark piece (words ++ mark :: rest) = (piece.reverse ++ words) :: cutAt mark [] rest := by
  obtain ⟨next, more, rfl⟩ := List.exists_cons_of_ne_nil hrest
  induction words generalizing piece with
  | nil =>
    rw [List.nil_append, cutAt, if_pos ⟨rfl, hne⟩, List.append_nil]
  | cons word words ih =>
    obtain ⟨hword, hwords⟩ := List.ne_and_not_mem_of_not_mem_cons h
    have hcut : ¬ (word = mark ∧ piece ≠ []) := fun hcut => hword hcut.1.symm
    obtain ⟨second, others, hothers⟩ :=
      List.exists_cons_of_ne_nil (show words ++ mark :: next :: more ≠ [] by simp)
    rw [List.cons_append, hothers, cutAt, if_neg hcut, ← hothers, ih hwords (by simp)]
    simp

/-- Cutting takes apart what marks join. A piece may start with a mark. -/
theorem cutAt_intercalate {mark : Word} {pieces : List (List Word)} (hne : pieces ≠ [])
    (h : ∀ piece ∈ pieces, piece ≠ [] ∧ mark ∉ piece.tail) :
    cutAt mark [] ([mark].intercalate pieces) = pieces := by
  induction pieces with
  | nil => exact absurd rfl hne
  | cons piece pieces ih =>
    obtain ⟨hpiece, hmark⟩ := h piece List.mem_cons_self
    obtain ⟨first, words, rfl⟩ := List.exists_cons_of_ne_nil hpiece
    rw [List.tail_cons] at hmark
    -- the first word of a piece is never cut off
    have hstart : ∀ rest, rest ≠ [] → cutAt mark [] (first :: rest) = cutAt mark [first] rest := by
      intro rest hrest
      obtain ⟨next, more, rfl⟩ := List.exists_cons_of_ne_nil hrest
      rw [cutAt, if_neg (by simp)]
    by_cases hnil : pieces = []
    · subst hnil
      rw [List.intercalate_singleton]
      cases words with
      | nil => rfl
      | cons second words =>
        rw [hstart _ (by simp), cutAt_of_not_mem hmark]
        rfl
    · have hmore := ih hnil fun other hother => h other (List.mem_cons_of_mem _ hother)
      have hrest : [mark].intercalate pieces ≠ [] := intercalate_ne_nil hnil fun other hother =>
        (h other (List.mem_cons_of_mem _ hother)).1
      rw [List.intercalate_cons_of_ne_nil hnil, List.append_assoc, List.cons_append,
        List.singleton_append, hstart _ (by simp), cutAt_append_mark hmark (by simp) hrest, hmore]
      rfl

/-! ## Groups of terms -/

/-- The words of a group, from those of its terms. -/
def joinTerms (group : List (List (List Char))) : List (List Char) :=
  ["OR".toList].intercalate group

/-- The words of a condition, from those of the terms of its groups. -/
def joinGroups (groups : List (List (List (List Char)))) : List (List Char) :=
  ["AND".toList].intercalate (groups.map joinTerms)

/-- The terms of a group, each marked as it is behind those before it. -/
def markTerms (waiting : Bool) : List (List (List Char)) → List (List Word)
  | [] => []
  | words :: rest => markBetween waiting words :: markTerms (waits waiting words) rest

theorem waits_mark (waiting : Bool) {word : List Char} (hbetween : word ≠ "BETWEEN".toList)
    (hand : word ≠ "AND".toList) (rest : List (List Char)) :
    waits waiting (word :: rest) = waits waiting rest := by
  rw [waits, if_neg hbetween, if_neg fun h => hand h.2]

theorem waits_joinTerms (waiting : Bool) (group : List (List (List Char))) :
    waits waiting (joinTerms group) = group.foldl waits waiting := by
  rw [joinTerms]
  induction group generalizing waiting with
  | nil => rfl
  | cons words group ih =>
    by_cases hnil : group = []
    · subst hnil
      rw [List.intercalate_singleton]
      rfl
    · rw [List.intercalate_cons_of_ne_nil hnil, List.append_assoc, waits_append,
        List.singleton_append, waits_mark _ (by decide) (by decide), ih, List.foldl_cons]

theorem markTerms_ne_nil {waiting : Bool} {group : List (List (List Char))} (h : group ≠ []) :
    markTerms waiting group ≠ [] := by
  obtain ⟨words, rest, rfl⟩ := List.exists_cons_of_ne_nil h
  exact List.cons_ne_nil _ _

theorem markBetween_joinTerms (waiting : Bool) (group : List (List (List Char))) :
    markBetween waiting (joinTerms group) = [orMark].intercalate (markTerms waiting group) := by
  rw [joinTerms]
  induction group generalizing waiting with
  | nil => rfl
  | cons words group ih =>
    by_cases hnil : group = []
    · subst hnil
      rw [List.intercalate_singleton, markTerms, markTerms, List.intercalate_singleton]
    · rw [List.intercalate_cons_of_ne_nil hnil, List.append_assoc, markBetween_append,
        List.singleton_append, markBetween, if_neg (by decide), if_neg (fun h => by simp at h), ih,
        markTerms, List.intercalate_cons_of_ne_nil (markTerms_ne_nil hnil), List.append_assoc]
      rfl

/-- The groups are marked one by one if no `AND` between two of them is waited for. -/
theorem markBetween_joinGroups {groups : List (List (List (List Char)))}
    (hends : ∀ group ∈ groups.dropLast, group.foldl waits false = false) :
    markBetween false (joinGroups groups) =
      [andMark].intercalate (groups.map fun group => markBetween false (joinTerms group)) := by
  rw [joinGroups]
  induction groups with
  | nil => rfl
  | cons group groups ih =>
    by_cases hnil : groups = []
    · subst hnil
      rw [List.map_singleton, List.map_singleton, List.intercalate_singleton,
        List.intercalate_singleton]
    · rw [List.dropLast_cons_of_ne_nil hnil] at hends
      have hend := hends group List.mem_cons_self
      have hmore := ih fun other hother => hends other (List.mem_cons_of_mem group hother)
      have hmark : ∀ rest, markBetween false ("AND".toList :: rest) =
          andMark :: markBetween false rest := by
        intro rest
        rw [markBetween, if_neg (by decide), if_neg (by simp)]
      rw [List.map_cons, List.intercalate_cons_of_ne_nil (by simpa using hnil), List.append_assoc,
        markBetween_append, waits_joinTerms, hend, List.singleton_append, hmark, hmore,
        List.map_cons, List.intercalate_cons_of_ne_nil (by simpa using hnil), List.append_assoc]
      rfl

/-! ## Terms that fit -/

/-- Whether the words of a term can stand in a group, as its first term or behind others, without
    being cut. -/
structure TermFits (first waiting : Bool) (words : List (List Char)) : Prop where
  ne_nil : words ≠ []
  no_or : orMark ∉ (markBetween waiting words).tail
  no_and : andMark ∉ (if first then (markBetween waiting words).tail
    else markBetween waiting words)

theorem TermFits.of_no_mark {first waiting : Bool} {words : List (List Char)} (hne : words ≠ [])
    (hor : orMark ∉ markBetween waiting words) (hand : andMark ∉ markBetween waiting words) :
    TermFits first waiting words := by
  refine ⟨hne, fun hmem => hor (List.mem_of_mem_tail hmem), ?_⟩
  cases first
  · exact hand
  · exact fun hmem => hand (List.mem_of_mem_tail hmem)

/-- Whether terms can stand in a group one after another. -/
def GroupFits (first waiting : Bool) : List (List (List Char)) → Prop
  | [] => True
  | words :: rest => TermFits first waiting words ∧ GroupFits false (waits waiting words) rest

theorem GroupFits.mem_markTerms {first waiting : Bool} {group : List (List (List Char))}
    (h : GroupFits first waiting group) :
    ∀ term ∈ markTerms waiting group, term ≠ [] ∧ orMark ∉ term.tail := by
  induction group generalizing first waiting with
  | nil => simp [markTerms]
  | cons words group ih =>
    intro term hterm
    rcases List.mem_cons.mp hterm with rfl | hterm
    · exact ⟨fun hnil => h.1.ne_nil (markBetween_eq_nil_iff.mp hnil), h.1.no_or⟩
    · exact ih h.2 term hterm

theorem GroupFits.and_not_mem {waiting : Bool} {group : List (List (List Char))}
    (h : GroupFits false waiting group) : andMark ∉ markBetween waiting (joinTerms group) := by
  rw [markBetween_joinTerms]
  induction group generalizing waiting with
  | nil => simp [markTerms]
  | cons words group ih =>
    by_cases hnil : group = []
    · subst hnil
      rw [markTerms, markTerms, List.intercalate_singleton]
      simpa using h.1.no_and
    · rw [markTerms, List.intercalate_cons_of_ne_nil (markTerms_ne_nil hnil), List.mem_append,
        List.mem_append, not_or, not_or]
      exact ⟨⟨by simpa using h.1.no_and, by decide⟩, ih h.2⟩

/-- An `AND` can stand only as the first word of a group. -/
theorem GroupFits.and_not_mem_tail {waiting : Bool} {group : List (List (List Char))}
    (h : GroupFits true waiting group) :
    andMark ∉ (markBetween waiting (joinTerms group)).tail := by
  cases group with
  | nil => simp [joinTerms, markBetween]
  | cons words group =>
    rw [markBetween_joinTerms]
    have hne : markBetween waiting words ≠ [] := fun hnil =>
      h.1.ne_nil (markBetween_eq_nil_iff.mp hnil)
    by_cases hnil : group = []
    · subst hnil
      rw [markTerms, markTerms, List.intercalate_singleton]
      simpa using h.1.no_and
    · have hrest := h.2.and_not_mem
      rw [markBetween_joinTerms] at hrest
      rw [markTerms, List.intercalate_cons_of_ne_nil (markTerms_ne_nil hnil), List.append_assoc,
        List.tail_append_of_ne_nil hne, List.mem_append, List.mem_append, not_or, not_or]
      exact ⟨by simpa using h.1.no_and, by decide, hrest⟩

theorem map_text_markTerms (waiting : Bool) {group : List (List (List Char))}
    (h : ∀ words ∈ group, ∀ word ∈ words, '\x1f' ∉ word) :
    (markTerms waiting group).map (List.map Word.text) = group := by
  induction group generalizing waiting with
  | nil => rfl
  | cons words group ih =>
    rw [markTerms, List.map_cons, map_text_markBetween waiting (h words List.mem_cons_self),
      ih _ fun other hother => h other (List.mem_cons_of_mem words hother)]

/-- Terms that fit are the terms of the condition they make up. -/
theorem termTexts_joinGroups {groups : List (List (List (List Char)))} (hne : groups ≠ [])
    (hfits : ∀ group ∈ groups, group ≠ [] ∧ GroupFits true false group)
    (hends : ∀ group ∈ groups.dropLast, group.foldl waits false = false)
    (hseparator : ∀ group ∈ groups, ∀ words ∈ group, ∀ word ∈ words, '\x1f' ∉ word) :
    termTexts (joinGroups groups) = groups.map (List.map (join [' '])) := by
  have hgroups : cutAt andMark [] (markBetween false (joinGroups groups)) =
      groups.map fun group => markBetween false (joinTerms group) := by
    rw [markBetween_joinGroups hends]
    refine cutAt_intercalate (by simpa using hne) fun piece hpiece => ?_
    obtain ⟨group, hgroup, rfl⟩ := List.mem_map.mp hpiece
    obtain ⟨hgroupne, hfit⟩ := hfits group hgroup
    rw [markBetween_joinTerms]
    refine ⟨intercalate_ne_nil (markTerms_ne_nil hgroupne) fun term hterm =>
      (hfit.mem_markTerms term hterm).1, ?_⟩
    rw [← markBetween_joinTerms]
    exact hfit.and_not_mem_tail
  rw [termTexts, hgroups, List.map_map]
  refine List.map_congr_left fun group hgroup => ?_
  obtain ⟨hgroupne, hfit⟩ := hfits group hgroup
  rw [Function.comp_apply, markBetween_joinTerms,
    cutAt_intercalate (markTerms_ne_nil hgroupne) hfit.mem_markTerms]
  conv_rhs => rw [← map_text_markTerms false (hseparator group hgroup)]
  rw [List.map_map]
  rfl

/-! ## The terms of a condition -/

/-- What is known of the words of a term that a condition was cut into: they are not cut, but for a
    mark at their end. -/
structure TermCut (first waiting : Bool) (words : List (List Char)) : Prop where
  ne_nil : words ≠ []
  no_or : orMark ∉ (markBetween waiting words).tail.dropLast
  no_and : andMark ∉ (if first then (markBetween waiting words).tail
    else markBetween waiting words).dropLast

/-- What is known of the terms of a group. -/
def GroupCut (first waiting : Bool) : List (List (List Char)) → Prop
  | [] => True
  | words :: rest => TermCut first waiting words ∧ GroupCut false (waits waiting words) rest

theorem markBetween_eq_cons_and {waiting : Bool} {words : List (List Char)} {y : List Word}
    (h : markBetween waiting words = andMark :: y) :
    ∃ rest, words = "AND".toList :: rest ∧ waiting = false ∧ markBetween false rest = y := by
  cases words with
  | nil => simp [markBetween] at h
  | cons word rest =>
    rw [markBetween] at h
    split_ifs at h with hbetween hwaiting
    · obtain ⟨hword, -⟩ := List.cons.inj h
      rw [Word.plain.inj hword] at hbetween
      exact absurd hbetween (by decide)
    · simp at h
    · obtain ⟨hword, hrest⟩ := List.cons.inj h
      obtain rfl := Word.plain.inj hword
      have hfalse : waiting = false := by simpa using hwaiting
      subst hfalse
      exact ⟨rest, rfl, rfl, hrest⟩

theorem markBetween_eq_cons_or {waiting : Bool} {words : List (List Char)} {y : List Word}
    (h : markBetween waiting words = orMark :: y) :
    ∃ rest, words = "OR".toList :: rest ∧ markBetween waiting rest = y := by
  cases words with
  | nil => simp [markBetween] at h
  | cons word rest =>
    rw [markBetween] at h
    split_ifs at h with hbetween hwaiting
    · obtain ⟨hword, -⟩ := List.cons.inj h
      rw [Word.plain.inj hword] at hbetween
      exact absurd hbetween (by decide)
    · simp at h
    · obtain ⟨hword, hrest⟩ := List.cons.inj h
      exact ⟨rest, by rw [Word.plain.inj hword], hrest⟩

/-- The words of a group that was cut into terms. -/
theorem exists_terms {terms : List (List Word)} (hne : terms ≠ []) {first waiting : Bool}
    {words : List (List Char)}
    (h : markBetween waiting words = [orMark].intercalate terms)
    (hor : ∀ term ∈ terms, term ≠ [] ∧ orMark ∉ term.tail.dropLast)
    (hand : andMark ∉ (if first then (markBetween waiting words).tail
      else markBetween waiting words).dropLast) :
    ∃ group, group ≠ [] ∧ joinTerms group = words ∧ markTerms waiting group = terms ∧
      GroupCut first waiting group := by
  induction terms generalizing first waiting words with
  | nil => exact absurd rfl hne
  | cons term terms ih =>
    obtain ⟨hterm, hmark⟩ := hor term List.mem_cons_self
    by_cases hnil : terms = []
    · subst hnil
      rw [List.intercalate_singleton] at h
      subst h
      refine ⟨[words], by simp, List.intercalate_singleton, rfl, ⟨?_, hmark, hand⟩, trivial⟩
      rintro rfl
      exact hterm rfl
    · rw [List.intercalate_cons_of_ne_nil hnil, List.append_assoc, List.singleton_append] at h
      obtain ⟨front, rest, rfl, hfront, hrest⟩ := markBetween_eq_append h
      obtain ⟨rest, rfl, hmarked⟩ := markBetween_eq_cons_or hrest
      have hrestne : markBetween (waits waiting front) rest ≠ [] := by
        rw [hmarked]
        exact intercalate_ne_nil hnil fun other hother =>
          (hor other (List.mem_cons_of_mem term hother)).1
      -- the last word of the group is in the terms behind the first
      have hplace : (if first then (term ++ orMark :: markBetween (waits waiting front) rest).tail
          else term ++ orMark :: markBetween (waits waiting front) rest).dropLast =
          (if first then term.tail else term) ++
            orMark :: (markBetween (waits waiting front) rest).dropLast := by
        cases first
        · simp [List.dropLast_append_of_ne_nil, List.dropLast_cons_of_ne_nil hrestne]
        · simp [List.tail_append_of_ne_nil hterm, List.dropLast_append_of_ne_nil,
            List.dropLast_cons_of_ne_nil hrestne]
      rw [h, ← hmarked, hplace, List.mem_append, not_or] at hand
      obtain ⟨hfirst, hmore⟩ := hand
      obtain ⟨group, hgroup, hjoin, hterms, hcut⟩ := @ih hnil false _ rest hmarked
        (fun other hother => hor other (List.mem_cons_of_mem term hother))
        (fun hmem => hmore (List.mem_cons_of_mem _ hmem))
      refine ⟨front :: group, by simp, ?_, by rw [markTerms, hfront, hterms], ⟨?_, ?_, ?_⟩, hcut⟩
      · rw [joinTerms, List.intercalate_cons_of_ne_nil hgroup, List.append_assoc, ← hjoin]
        rfl
      · rintro rfl
        exact hterm hfront.symm
      · rw [hfront]
        exact hmark
      · rw [hfront]
        exact fun hmem => hfirst (List.mem_of_mem_dropLast hmem)

/-- The words of a condition that was cut into groups. -/
theorem exists_groups_of_pieces {pieces : List (List Word)} (hne : pieces ≠ [])
    {words : List (List Char)}
    (h : markBetween false words = [andMark].intercalate pieces)
    (hpieces : ∀ piece ∈ pieces, piece ≠ [] ∧ andMark ∉ piece.tail.dropLast) :
    ∃ groups, groups ≠ [] ∧ joinGroups groups = words ∧
      groups.map (markTerms false) = pieces.map (cutAt orMark []) ∧
      (∀ group ∈ groups, group ≠ [] ∧ GroupCut true false group) ∧
      ∀ group ∈ groups.dropLast, group.foldl waits false = false := by
  have hgroup : ∀ {words : List (List Char)}, markBetween false words ≠ [] →
      andMark ∉ (markBetween false words).tail.dropLast →
      ∃ group, group ≠ [] ∧ joinTerms group = words ∧
        markTerms false group = cutAt orMark [] (markBetween false words) ∧
        GroupCut true false group := by
    intro words hwords hand
    exact exists_terms (cutAt_ne_nil _ _ _) (eq_intercalate_cutAt _ _)
      (fun term hterm => mem_cutAt hterm hwords (by simp)) hand
  induction pieces generalizing words with
  | nil => exact absurd rfl hne
  | cons piece pieces ih =>
    obtain ⟨hpiece, hmark⟩ := hpieces piece List.mem_cons_self
    by_cases hnil : pieces = []
    · subst hnil
      rw [List.intercalate_singleton] at h
      subst h
      obtain ⟨group, hgroupne, hjoin, hterms, hcut⟩ := hgroup hpiece hmark
      exact ⟨[group], by simp, by rw [joinGroups, List.map_singleton, List.intercalate_singleton,
        hjoin], by rw [List.map_singleton, List.map_singleton, hterms],
        by simpa using ⟨hgroupne, hcut⟩, by simp⟩
    · rw [List.intercalate_cons_of_ne_nil hnil, List.append_assoc, List.singleton_append] at h
      obtain ⟨front, rest, rfl, rfl, hrest⟩ := markBetween_eq_append h
      obtain ⟨rest, rfl, hend, hrest⟩ := markBetween_eq_cons_and hrest
      obtain ⟨group, hgroupne, hjoin, hterms, hcut⟩ := hgroup hpiece hmark
      obtain ⟨groups, hgroups, hjoins, hmore, hcuts, hends⟩ := ih hnil hrest
        fun other hother => hpieces other (List.mem_cons_of_mem _ hother)
      refine ⟨group :: groups, by simp, ?_, ?_, ?_, ?_⟩
      · rw [joinGroups, List.map_cons, List.intercalate_cons_of_ne_nil (by simpa using hgroups),
          hjoin, List.append_assoc, ← hjoins]
        rfl
      · rw [List.map_cons, List.map_cons, hterms, hmore]
      · intro other hother
        rcases List.mem_cons.mp hother with rfl | hother
        · exact ⟨hgroupne, hcut⟩
        · exact hcuts other hother
      · rw [List.dropLast_cons_of_ne_nil hgroups]
        intro other hother
        rcases List.mem_cons.mp hother with rfl | hother
        · rw [← waits_joinTerms, hjoin, hend]
        · exact hends other hother

/-- What the terms of a condition are like. -/
theorem exists_groups {words : List (List Char)} (hne : words ≠ [])
    (hseparator : ∀ word ∈ words, '\x1f' ∉ word) :
    ∃ groups, groups ≠ [] ∧ joinGroups groups = words ∧
      termTexts words = groups.map (List.map (join [' '])) ∧
      (∀ group ∈ groups, group ≠ [] ∧ GroupCut true false group) ∧
      ∀ group ∈ groups.dropLast, group.foldl waits false = false := by
  obtain ⟨groups, hgroups, hjoin, hmarks, hcuts, hends⟩ :=
    exists_groups_of_pieces (cutAt_ne_nil andMark [] (markBetween false words))
      (eq_intercalate_cutAt _ _) fun piece hpiece =>
        mem_cutAt hpiece (fun hnil => hne (markBetween_eq_nil_iff.mp hnil)) (by simp)
  refine ⟨groups, hgroups, hjoin, ?_, hcuts, hends⟩
  have hwords : ∀ group ∈ groups, ∀ words ∈ group, ∀ word ∈ words, '\x1f' ∉ word := by
    intro group hgroup terms hterms word hword
    refine hseparator word ?_
    rw [← hjoin, joinGroups]
    refine mem_intercalate_of_mem (List.mem_map_of_mem hgroup) ?_
    exact mem_intercalate_of_mem hterms hword
  have hmap := congrArg (List.map (List.map fun term => join [' '] (term.map Word.text))) hmarks
  rw [List.map_map, List.map_map] at hmap
  refine hmap.symm.trans (List.map_congr_left fun group hgroup => ?_)
  conv_rhs => rw [← map_text_markTerms false (hwords group hgroup)]
  rw [List.map_map]
  rfl

/-! ## The texts of terms -/

/-- What stands for a masked text is made of its characters. -/
theorem mem_of_mem_unmask {text : List Char} {c : Char} (h : c ∈ unmask text) : c ∈ text := by
  fun_induction unmask text with
  | case1 rest ih =>
    simp only [List.mem_cons] at h ⊢
    tauto
  | case2 d rest _ ih =>
    rcases List.mem_cons.mp h with rfl | h
    · exact List.mem_cons_self
    · exact List.mem_cons_of_mem d (ih h)
  | case3 => exact absurd h List.not_mem_nil

theorem unmask_ne_nil {text : List Char} (h : text ≠ []) : unmask text ≠ [] := by
  fun_cases unmask text <;> simp_all

/-- Each term of a condition is evenly spaced, whatever its words are. -/
theorem spaced_of_mem_termTexts {words : List (List Char)} (hne : words ≠ [])
    (hwords : ∀ word ∈ words, word ≠ [] ∧ ∀ c ∈ word, isBlank c = false) :
    ∀ group ∈ termTexts words, ∀ text ∈ group, Spaced text := by
  have hmarked : ∀ word ∈ markBetween false words,
      word.text ≠ [] ∧ ∀ c ∈ word.text, isBlank c = false := by
    intro word hword
    cases word with
    | plain text =>
      obtain ⟨hne, hchars⟩ := hwords text (plain_mem_markBetween hword)
      exact ⟨unmask_ne_nil hne, fun c hc => hchars c (mem_of_mem_unmask hc)⟩
    | betweenAnd =>
      have hchars : "AND".toList.all (fun c => !isBlank c) = true := rfl
      exact ⟨by decide, fun c hc => by simpa using List.all_eq_true.mp hchars c hc⟩
  -- the pieces of a cut are made of its words, and none is empty
  have hcut : ∀ {mark : Word} {marked : List Word}, marked ≠ [] →
      ∀ piece ∈ cutAt mark [] marked, piece ≠ [] ∧ ∀ word ∈ piece, word ∈ marked := by
    intro mark marked hne piece hpiece
    refine ⟨(mem_cutAt hpiece (by simpa using hne) (by simp)).1, fun word hword => ?_⟩
    rw [eq_intercalate_cutAt mark marked]
    exact mem_intercalate_of_mem hpiece hword
  intro texts htexts text htext
  obtain ⟨group, hgroup, rfl⟩ := List.mem_map.mp htexts
  obtain ⟨term, hterm, rfl⟩ := List.mem_map.mp htext
  obtain ⟨hgroupne, hgroupwords⟩ :=
    hcut (fun hnil => hne (markBetween_eq_nil_iff.mp hnil)) group hgroup
  obtain ⟨htermne, htermwords⟩ := hcut hgroupne term hterm
  refine .of_join (by simpa using htermne) fun word hword => ?_
  obtain ⟨marked, hmem, rfl⟩ := List.mem_map.mp hword
  exact hmarked marked (hgroupwords marked (htermwords marked hmem))

end TableClient.Condition
