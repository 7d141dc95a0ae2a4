import Mathlib
import TableClient.Proofs.Condition.Recompile
import TableClient.Proofs.Condition.Joining

/-!
# The parentheses of conditions

Compiling takes parentheses off both ends of each term and puts them back as they were, so a
compiled condition has the parentheses of its text, in their order. Nothing looks at them across
terms: a text whose parentheses do not pair is compiled as well. Where they do pair, the condition
keeps to itself in every text that it becomes part of: no group that is opened in it is closed
outside of it, and none that is opened outside is closed in it.

Results:
* `Nested.separate`: no group of a text leaves or enters a part with nested parentheses.
* `parentheses_termTexts`, `parentheses_expandFrom`: cutting a condition into terms and expanding
  its placeholders keep the parentheses.
* `compile_parentheses`: a compiled condition has the parentheses of its text.
-/

namespace TableClient.Condition

open Text

/-! ## Nested parentheses -/

/-- A text with as many opening parentheses as closing ones, no beginning of which closes more than
    it has opened. -/
structure Nested (text : List Char) : Prop where
  balanced : Balanced text
  prefixes : ∀ front, front <+: text → front.count ')' ≤ front.count '('

instance (text : List Char) : Decidable (Nested text) :=
  decidable_of_iff (Balanced text ∧ ∀ front ∈ text.inits, front.count ')' ≤ front.count '(')
    ⟨fun h => ⟨h.1, fun front hfront => h.2 front ((List.mem_inits _ _).mpr hfront)⟩,
      fun h => ⟨h.balanced, fun front hfront => h.prefixes front ((List.mem_inits _ _).mp hfront)⟩⟩

/-- How many more parentheses a text opens than it closes. -/
def depth (text : List Char) : ℤ := text.count '(' - text.count ')'

@[simp] theorem depth_append (x y : List Char) : depth (x ++ y) = depth x + depth y := by
  simp only [depth, List.count_append, Nat.cast_add]
  omega

section
variable {text part before behind : List Char}

theorem nested_iff_depth :
    Nested text ↔ depth text = 0 ∧ ∀ place, 0 ≤ depth (text.take place) := by
  have hbalanced : Balanced text ↔ depth text = 0 := by
    rw [Balanced, depth]
    omega
  have hdeep : ∀ front : List Char, front.count ')' ≤ front.count '(' ↔ 0 ≤ depth front := by
    intro front
    rw [depth]
    omega
  constructor
  · rintro ⟨hcounts, hprefixes⟩
    exact ⟨hbalanced.mp hcounts, fun place =>
      (hdeep _).mp (hprefixes _ (List.take_prefix place text))⟩
  · rintro ⟨hzero, hplaces⟩
    refine ⟨hbalanced.mpr hzero, fun front hfront => (hdeep front).mpr ?_⟩
    rw [List.prefix_iff_eq_take.mp hfront]
    exact hplaces front.length

theorem Nested.append {x y : List Char} (hx : Nested x) (hy : Nested y) : Nested (x ++ y) := by
  obtain ⟨hxzero, hxplaces⟩ := nested_iff_depth.mp hx
  obtain ⟨hyzero, hyplaces⟩ := nested_iff_depth.mp hy
  refine nested_iff_depth.mpr ⟨by rw [depth_append, hxzero, hyzero, add_zero], fun place => ?_⟩
  rw [List.take_append, depth_append]
  exact add_nonneg (hxplaces place) (hyplaces _)

theorem Nested.parenthesized (h : Nested text) : Nested ('(' :: (text ++ [')'])) := by
  refine ⟨h.balanced.parenthesized, fun front hfront => ?_⟩
  cases front with
  | nil => exact le_rfl
  | cons c front =>
    obtain ⟨rfl, hinner⟩ := List.cons_prefix_cons.mp hfront
    rcases List.prefix_concat_iff.mp hinner with rfl | hinner
    · have hcounts := h.balanced
      rw [Balanced] at hcounts
      simp [hcounts]
    · have hcounts := h.prefixes front hinner
      rw [List.count_cons_of_ne (by decide), List.count_cons_self]
      omega

/-! ## Groups -/

/-- The depth within a part of a text, as seen from the text. -/
theorem depth_take_part {place : ℕ} (h : place ≤ part.length) :
    depth ((before ++ part ++ behind).take (before.length + place)) =
      depth before + depth (part.take place) := by
  rw [List.append_assoc, List.take_length_add_append, List.take_append_of_le_length h, depth_append]

/-- Within a part with nested parentheses a text is nowhere less deep than before the part. -/
theorem Nested.depth_le (h : Nested part) (before behind : List Char) (place : ℕ)
    (hstart : before.length ≤ place) (hend : place ≤ before.length + part.length) :
    depth before ≤ depth ((before ++ part ++ behind).take place) := by
  obtain ⟨offset, rfl⟩ := Nat.exists_eq_add_of_le hstart
  rw [depth_take_part (Nat.add_le_add_iff_left.mp hend)]
  have := (nested_iff_depth.mp h).2 offset
  omega

/-- Behind a part with nested parentheses a text is as deep as before it. -/
theorem Nested.depth_eq (h : Nested part) (before behind : List Char) :
    depth ((before ++ part ++ behind).take (before.length + part.length)) = depth before := by
  rw [depth_take_part le_rfl, List.take_length, (nested_iff_depth.mp h).1, add_zero]

/-- Whether two places of a text hold the opening and the closing parenthesis of one group. -/
def Pairs (text : List Char) (opening closing : ℕ) : Prop :=
  ∃ front inner rest, text = front ++ '(' :: (inner ++ ')' :: rest) ∧ Nested inner ∧
    opening = front.length ∧ closing = front.length + 1 + inner.length

/-- In a group a text is deeper than before it, and behind the group as deep as before. -/
theorem Pairs.deeper {opening closing : ℕ} (h : Pairs text opening closing) :
    (∀ place, opening < place → place ≤ closing →
        depth (text.take opening) < depth (text.take place)) ∧
      depth (text.take (closing + 1)) = depth (text.take opening) := by
  obtain ⟨front, inner, rest, htext, hinner, rfl, rfl⟩ := h
  have hfront : text.take front.length = front := by
    rw [htext, List.take_left]
  have hopen : depth (front ++ ['(']) = depth front + 1 := depth_append front ['(']
  have hlength : (front ++ ['(']).length = front.length + 1 := List.length_append
  rw [hfront]
  constructor
  · intro place hstart hend
    have hle := hinner.depth_le (front ++ ['(']) (')' :: rest) place (by omega) (by omega)
    have hsplit : front ++ ['('] ++ inner ++ ')' :: rest = text := by simp [htext]
    rw [hsplit, hopen] at hle
    omega
  · have hwhole : text = front ++ ['('] ++ inner ++ [')'] ++ rest := by simp [htext]
    have hplace : front.length + 1 + inner.length + 1 =
        (front ++ ['('] ++ inner ++ [')']).length := by simp; omega
    have hend : depth [')'] = -1 := rfl
    rw [hplace, hwhole, List.take_left, depth_append, depth_append, hopen,
      (nested_iff_depth.mp hinner).1, hend]
    omega

/-- Whether a part keeps to itself wherever it stands in a text: no group of the text has one of its
    parentheses in the part and the other one outside. -/
def Separate (part text : List Char) : Prop :=
  ∀ before behind, text = before ++ part ++ behind → ∀ opening closing, Pairs text opening closing →
    (opening ∈ Set.Ico before.length (before.length + part.length) ↔
      closing ∈ Set.Ico before.length (before.length + part.length))

/-- No group of a text leaves or enters a part with nested parentheses. -/
theorem Nested.separate (h : Nested part) (text : List Char) : Separate part text := by
  intro before behind htext opening closing hpairs
  have hlt : opening < closing := by
    obtain ⟨front, inner, rest, -, -, rfl, rfl⟩ := hpairs
    omega
  have hstart : text.take before.length = before := by
    rw [htext, List.append_assoc, List.take_left]
  have hend := h.depth_eq before behind
  have hwithin := h.depth_le before behind
  rw [← htext] at hend hwithin
  obtain ⟨hdeeper, hback⟩ := hpairs.deeper
  constructor
  · -- a group that leaves the part is still open at its end
    rintro ⟨hlow, hhigh⟩
    refine ⟨by omega, ?_⟩
    by_contra hout
    have hopen := hdeeper (before.length + part.length) hhigh (by omega)
    have hbase := hwithin opening hlow hhigh.le
    omega
  · -- a group that enters the part is open at its start, and closing it goes below that
    rintro ⟨hlow, hhigh⟩
    refine ⟨?_, by omega⟩
    by_contra hout
    have hopen := hdeeper before.length (by omega) hlow
    have hclosed := hwithin (closing + 1) (by omega) (by omega)
    rw [hstart] at hopen
    omega

end

/-! ## The parentheses of a text -/

/-- The parentheses of a text, in order. -/
def parentheses (text : List Char) : List Char := text.filter fun c => c == '(' || c == ')'

@[simp] theorem parentheses_append (x y : List Char) :
    parentheses (x ++ y) = parentheses x ++ parentheses y :=
  List.filter_append x y

/-- A text whose characters are all of a kind that parentheses are not of has none. -/
theorem parentheses_eq_nil {text : List Char} {kind : Char → Prop} (h : ∀ c ∈ text, kind c)
    (hopen : ¬ kind '(') (hclose : ¬ kind ')') : parentheses text = [] := by
  refine List.filter_eq_nil_iff.mpr fun c hc hparen => ?_
  rcases Bool.or_eq_true_iff.mp hparen with heq | heq
  · exact hopen (beq_iff_eq.mp heq ▸ h c hc)
  · exact hclose (beq_iff_eq.mp heq ▸ h c hc)

theorem parentheses_join {link : List Char} (hlink : parentheses link = [])
    (texts : List (List Char)) : parentheses (join link texts) = texts.flatMap parentheses := by
  fun_induction join link texts with
  | case1 => rfl
  | case2 text => simp
  | case3 text next texts ih => simp [hlink, ih]

theorem parentheses_squeeze (text : List Char) : parentheses (squeeze text) = parentheses text := by
  rw [parentheses, squeeze, List.filter_filter, parentheses]
  refine List.filter_congr fun c _ => ?_
  by_cases hopen : c = '('
  · subst hopen
    rfl
  · by_cases hclose : c = ')'
    · subst hclose
      rfl
    · simp [hopen, hclose]

/-- Whether parentheses are nested shows when all else is left out. -/
theorem nested_parentheses_iff {text : List Char} : Nested (parentheses text) ↔ Nested text := by
  have hcount : ∀ front : List Char, (parentheses front).count '(' = front.count '(' ∧
      (parentheses front).count ')' = front.count ')' := fun front =>
    ⟨List.count_filter rfl, List.count_filter rfl⟩
  have hbalanced : Balanced (parentheses text) ↔ Balanced text := by
    rw [Balanced, Balanced, (hcount text).1, (hcount text).2]
  constructor
  · rintro ⟨hcounts, hprefixes⟩
    refine ⟨hbalanced.mp hcounts, fun front hfront => ?_⟩
    have hle := hprefixes (parentheses front) (hfront.filter _)
    rwa [(hcount front).1, (hcount front).2] at hle
  · rintro ⟨hcounts, hprefixes⟩
    refine ⟨hbalanced.mpr hcounts, fun front hfront => ?_⟩
    obtain ⟨whole, hwhole, rfl⟩ := List.prefix_filter_iff.mp hfront
    have hle := hprefixes whole hwhole
    rwa [← (hcount whole).1, ← (hcount whole).2] at hle

/-! ## Cutting -/

theorem parentheses_unmask (text : List Char) : parentheses (unmask text) = parentheses text := by
  fun_induction unmask text with
  | case1 rest ih => exact ih
  | case2 c rest _ ih =>
    rw [← List.singleton_append, parentheses_append, ih, ← parentheses_append,
      List.singleton_append]
  | case3 => rfl

/-- Marked words have the parentheses of the words. -/
theorem parentheses_markBetween (waiting : Bool) (words : List (List Char)) :
    ((markBetween waiting words).flatMap fun word => parentheses word.text) =
      words.flatMap parentheses := by
  fun_induction markBetween waiting words with
  | case1 => rfl
  | case2 waiting rest ih =>
    rw [List.flatMap_cons, List.flatMap_cons, ih, Word.text, parentheses_unmask]
  | case3 waiting word rest _ hand ih =>
    rw [List.flatMap_cons, List.flatMap_cons, ih, Word.text, hand.2]
  | case4 waiting word rest _ _ ih =>
    rw [List.flatMap_cons, List.flatMap_cons, ih, Word.text, parentheses_unmask]

/-- Cutting at a mark loses nothing but what the mark holds. -/
theorem flatMap_cutAt {α : Type} {view : Word → List α} {mark : Word} (hmark : view mark = [])
    (piece words : List Word) :
    ((cutAt mark piece words).flatMap fun cut => cut.flatMap view) =
      (piece.reverse ++ words).flatMap view := by
  fun_induction cutAt mark piece words with
  | case1 piece => simp
  | case2 piece word => simp
  | case3 piece word next rest h ih => simp [ih, h.1, hmark]
  | case4 piece word next rest h ih => simp [ih]

/-- The terms of a condition have the parentheses of its words. -/
theorem parentheses_termTexts (words : List (List Char)) :
    ((termTexts words).flatMap fun group => group.flatMap parentheses) =
      words.flatMap parentheses := by
  have hterm : ∀ term : List Word, parentheses (join [' '] (term.map Word.text)) =
      term.flatMap fun word => parentheses word.text := by
    intro term
    rw [parentheses_join rfl, List.flatMap_map]
  have hgroup : ∀ group : List Word,
      (((cutAt orMark [] group).map fun term => join [' '] (term.map Word.text)).flatMap
        parentheses) = group.flatMap fun word => parentheses word.text := by
    intro group
    rw [List.flatMap_map, List.flatMap_congr fun term _ => hterm term, flatMap_cutAt rfl]
    rfl
  rw [termTexts, List.flatMap_map, List.flatMap_congr fun group _ => hgroup group,
    flatMap_cutAt rfl, List.reverse_nil, List.nil_append, parentheses_markBetween]

/-! ## Expanding -/

theorem parentheses_eq_nil_of_isWordChar {word : List Char} (h : ∀ c ∈ word, isWordChar c = true) :
    parentheses word = [] :=
  parentheses_eq_nil h (by decide) (by decide)

/-- Expansion keeps the parentheses if no name has one. -/
theorem parentheses_expandFrom {names : Dict String}
    (h : ∀ mark name, Dict.get? names mark = some name → parentheses name.toList = [])
    {word : Option (List Char)} (hword : ∀ read ∈ word, ∀ c ∈ read, isWordChar c = true)
    (text : List Char) : parentheses (Compiled.expandFrom names word text) = parentheses text := by
  have hresolve : ∀ read : List Char, (∀ c ∈ read, isWordChar c = true) →
      parentheses (Compiled.resolve names read) = [] := by
    intro read hread
    rw [Compiled.resolve]
    cases hname : Dict.get? names (String.ofList ('#' :: read.reverse)) with
    | some name => exact h _ name hname
    | none =>
      rw [Option.getD_none, String.toList_ofList, ← List.singleton_append, parentheses_append,
        parentheses_eq_nil_of_isWordChar fun c hc => hread c (List.mem_reverse.mp hc)]
      rfl
  induction text generalizing word with
  | nil =>
    cases word with
    | none => rfl
    | some read => exact hresolve read (hword read rfl)
  | cons c text ih =>
    have hone : parentheses (c :: text) = parentheses [c] ++ parentheses text :=
      parentheses_append [c] text
    have hclosed : parentheses (c :: Compiled.expandFrom names none text) =
        parentheses [c] ++ parentheses text := by
      rw [← List.singleton_append, parentheses_append, ih (by simp)]
    have hopened : c = '#' → parentheses (Compiled.expandFrom names (some []) text) =
        parentheses [c] ++ parentheses text := by
      rintro rfl
      exact ih (by simp)
    rw [hone]
    cases word with
    | none =>
      rw [Compiled.expandFrom]
      split_ifs with hsign
      · exact hopened hsign
      · exact hclosed
    | some read =>
      have hread := hword read rfl
      rw [Compiled.expandFrom]
      split_ifs with hc hsign
      · have hmore : ∀ d ∈ c :: read, isWordChar d = true := List.forall_mem_cons.mpr ⟨hc, hread⟩
        have hnone : parentheses [c] = [] :=
          parentheses_eq_nil_of_isWordChar fun d hd => List.mem_singleton.mp hd ▸ hc
        rw [ih (by simpa using hmore), hnone, List.nil_append]
      · rw [parentheses_append, hresolve read hread, hopened hsign, List.nil_append]
      · rw [parentheses_append, hresolve read hread, hclosed, List.nil_append]

/-! ## Compiled conditions -/

/-- The expansion of a compiled condition has the parentheses of the condition. -/
theorem parentheses_expand {space after : Namespace} {text : String} {values : List Json}
    {c : Compiled} (h : compile space text values = .ok (c, after)) :
    parentheses c.expand.toList = parentheses c.text.toList := by
  rw [Compiled.expand, String.toList_ofList]
  refine parentheses_expandFrom (fun mark name hname => ?_) (by simp) _
  have hisName := (isName_of_compile h (Dict.mem_of_get? hname)).1
  exact parentheses_eq_nil (fun c hc => (not_mem_of_isName hisName hc).2) (by decide) (by decide)

/-- A compiled condition has the parentheses of its text, in order. -/
theorem parentheses_of_compile {space after : Namespace} {text : String} {values : List Json}
    {c : Compiled} (h : compile space text values = .ok (c, after)) :
    parentheses c.text.toList = parentheses text.toList := by
  have hwords : (words text.toList).flatMap parentheses = parentheses text.toList := by
    rw [← @parentheses_join [' '] rfl, ← parentheses_squeeze, squeeze_join_words,
      parentheses_squeeze]
  rw [← parentheses_expand h, ← parentheses_squeeze, squeeze_expand_of_compile h,
    parentheses_squeeze, parentheses_join rfl, List.flatMap_map,
    List.flatMap_congr fun group _ => parentheses_join rfl group, parentheses_termTexts, hwords]

namespace Compiled

/-- A side of a joined condition has nested parentheses if the condition has. -/
theorem nested_grouped {c : Compiled} (h : Nested c.text.toList) : Nested c.grouped.toList := by
  rw [grouped]
  split_ifs
  · simpa using h.parenthesized
  · exact h

/-- Conditions with nested parentheses are joined to one. -/
theorem nested_join {connective : Connective} {left right c : Compiled}
    (hleft : Nested left.text.toList) (hright : Nested right.text.toList)
    (h : join connective left right = .ok c) : Nested c.text.toList := by
  obtain ⟨-, -, rfl⟩ := join_eq_ok_iff.mp h
  have hword : Nested (" " ++ connective.word ++ " ").toList := by
    cases connective <;> decide
  have htext := ((nested_grouped hleft).append hword).append (nested_grouped hright)
  simpa using htext

end Compiled

open Compiled in
/-- A compiled condition has the parentheses of its text, so they are nested if those of the text
    are. Then no group of a text that the condition is put into leaves or enters it, and joining it
    is such a putting into, which leaves the parentheses of the joined text nested. -/
theorem compile_parentheses {space after : Namespace} {text : String} {values : List Json}
    {c : Compiled} (h : compile space text values = .ok (c, after)) :
    parentheses c.text.toList = parentheses text.toList ∧
      (Nested c.text.toList ↔ Nested text.toList) ∧
      (Nested text.toList → (∀ whole, Separate c.grouped.toList whole) ∧
        ∀ connective other joined,
          join connective c other = .ok joined ∨ join connective other c = .ok joined →
            c.grouped.toList <:+: joined.text.toList ∧
              (Nested other.text.toList → Nested joined.text.toList)) := by
  have hparentheses := parentheses_of_compile h
  have hnested : Nested c.text.toList ↔ Nested text.toList := by
    rw [← nested_parentheses_iff, hparentheses, nested_parentheses_iff]
  refine ⟨hparentheses, hnested, fun htext => ?_⟩
  have hc := hnested.mpr htext
  refine ⟨(nested_grouped hc).separate, fun connective other joined hjoin => ⟨?_, fun hother => ?_⟩⟩
  · rcases hjoin with hjoin | hjoin
    · obtain ⟨-, -, rfl⟩ := join_eq_ok_iff.mp hjoin
      simp only [String.toList_append, List.append_assoc]
      exact List.infix_append [] _ _
    · obtain ⟨-, -, rfl⟩ := join_eq_ok_iff.mp hjoin
      rw [String.toList_append]
      exact (List.suffix_append _ _).isInfix
  · rcases hjoin with hjoin | hjoin
    · exact nested_join hc hother hjoin
    · exact nested_join hother hc hjoin

/-- A condition with groups over several terms. -/
def groupedTerms : Compiled :=
  ⟨"(#n0 = :x AND (NOT size(#n1) > :y)) OR #n1 IN (:z)", [("#n0", "a"), ("#n1", "b")],
    [(":x", .number "1"), (":y", .number "2"), (":z", .number "3")],
    [⟨.comparison, false⟩, ⟨.comparison, true⟩, ⟨.membership, false⟩]⟩

/-- A condition on a hash attribute. -/
def hashTerm : Compiled :=
  ⟨"#n2 = :hv", [("#n2", "id")], [(":hv", .number "4")], [⟨.comparison, false⟩]⟩

theorem compile_parentheses_groupedTerms :
    compile {} "(a = :x AND (NOT size(b) > :y)) OR b IN (:z)" [.int 1, .int 2, .int 3] =
        .ok (groupedTerms, ⟨["a", "b"], [":x", ":y", ":z"]⟩) ∧
      Nested "(a = :x AND (NOT size(b) > :y)) OR b IN (:z)".toList ∧
      ∃ joined, Compiled.join .and hashTerm groupedTerms = .ok joined ∧
        Separate groupedTerms.grouped.toList joined.text.toList ∧ Nested joined.text.toList := by
  have hcompile : compile {} "(a = :x AND (NOT size(b) > :y)) OR b IN (:z)"
      [.int 1, .int 2, .int 3] = .ok (groupedTerms, ⟨["a", "b"], [":x", ":y", ":z"]⟩) := by rfl
  have htext : Nested "(a = :x AND (NOT size(b) > :y)) OR b IN (:z)".toList := by decide
  have hhash : Nested hashTerm.text.toList := by decide
  obtain ⟨joined, hjoined⟩ : ∃ joined, Compiled.join .and hashTerm groupedTerms = .ok joined :=
    ⟨_, rfl⟩
  obtain ⟨-, -, hnested⟩ := compile_parentheses hcompile
  obtain ⟨hseparate, hjoin⟩ := hnested htext
  obtain ⟨-, hjoin⟩ := hjoin .and hashTerm joined (.inr hjoined)
  exact ⟨hcompile, htext, joined, hjoined, hseparate _, hjoin hhash⟩

/-- A parenthesis that is never closed is compiled as it is. -/
theorem not_nested_openGroup : ¬ ∀ (space after : Namespace) (text : String) (values : List Json)
    (c : Compiled), compile space text values = .ok (c, after) → Nested c.text.toList := by
  intro h
  have hcompile : compile {} "(a = :x" [.int 1] = .ok (⟨"(#n0 = :x", [("#n0", "a")],
      [(":x", .number "1")], [⟨.comparison, false⟩]⟩, ⟨["a"], [":x"]⟩) := by rfl
  have hnested := h _ _ _ _ _ hcompile
  revert hnested
  decide

end TableClient.Condition
